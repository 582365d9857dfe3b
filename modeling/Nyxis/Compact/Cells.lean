import Nyxis.Compact.Record

/-!
# Compact.Cells — appending cells to a body

A body grows by cells: `appendCell` pads it to the alignment of the cell (`appendAlign`) and appends the
cell's bytes (`appendBytes`), which depend on nothing else.  Readers round up with a mask (`alignTo`),
the encoder with a modulo; the two agree for powers of two.

* `alignTo_pow`, `alignTo_of_dvd`, `le_alignTo`: rounding up with a mask.
* `appendCell_eq`: a cell is padding and bytes.
-/

namespace Nyxis

open Lib Lib.Outcome

/-! ## Rounding up -/

/-- A position that is a multiple of a power of two is kept by every alignment up to it. -/
theorem alignTo_of_dvd {pos a k : ℕ} (hdvd : 2 ^ k ∣ pos) (ha : a ≤ 2 ^ k) (hk : k ≤ 64) (hpos : pos + a ≤ 2 ^ 64) :
    alignTo pos a = pos := by
  obtain ⟨q, rfl⟩ := hdvd
  rw [alignTo]
  by_cases h0 : a = 0
  · rw [if_pos h0]
  · have hland := land_clear (n := 64) (k := k) (q := q) (l := a - 1) (m := a - 1) (by omega) (by omega) (by omega) hk
      fun _ h => h
    rw [if_neg h0, Nat.add_sub_assoc (by omega)]
    rwa [Nat.sub_add_cancel (by omega)] at hland

/-- For a power of two the mask rounds up as the modulo does. -/
theorem alignTo_pow {pos k : ℕ} (hk : k ≤ 64) (hpos : pos + 2 ^ k ≤ 2 ^ 64) : alignTo pos (2 ^ k) = pos + padLen (2 ^ k) pos := by
  have hpow := Nat.two_pow_pos k
  have hdiv := Nat.div_add_mod pos (2 ^ k)
  have hmod := Nat.mod_lt pos hpow
  rcases Nat.eq_zero_or_pos (pos % 2 ^ k) with h0 | h0
  · have hdvd := Nat.dvd_of_mod_eq_zero h0
    rw [alignTo_of_dvd hdvd (Nat.le_refl _) hk hpos, padLen_of_dvd hdvd, Nat.add_zero]
  · have hland := land_clear (n := 64) (k := k) (q := pos / 2 ^ k + 1) (l := pos % 2 ^ k - 1) (m := 2 ^ k - 1)
      (by rw [Nat.mul_add]; omega) (by omega) (by omega) hk (fun i hi => by
        rw [Nat.testBit_two_pow_sub_one, decide_eq_true_iff]
        by_contra hki
        rw [Nat.testBit_lt_two_pow (show pos % 2 ^ k - 1 < 2 ^ i from
          Nat.lt_of_lt_of_le (by omega) (Nat.pow_le_pow_right (by decide) (Nat.le_of_not_lt hki)))] at hi
        cases hi)
    have hsum : pos + 2 ^ k - 1 = 2 ^ k * (pos / 2 ^ k + 1) + (pos % 2 ^ k - 1) := by
      rw [Nat.mul_add]
      omega
    rw [alignTo, if_neg (by omega), hsum]
    rw [Nat.sub_add_cancel hpow] at hland
    rw [hland, padLen, Nat.mod_eq_of_lt (by omega), Nat.mul_add]
    omega

/-- Rounding up with a mask goes up, also where the mask is not that of a power of two. -/
theorem le_alignTo {pos a : ℕ} (h : pos + a ≤ 2 ^ 64) : pos ≤ alignTo pos a := by
  rw [alignTo]
  split
  · omega
  · have := le_land_clear (n := 64) (x := pos + a - 1) (m := a - 1) (by omega) (by omega)
    rw [Nat.sub_add_cancel (by omega)] at this
    omega

theorem alignTo_le (pos w : ℕ) : alignTo pos w ≤ pos + w := by
  unfold alignTo
  split
  · omega
  · have := Nat.and_le_left (n := pos + w - 1) (m := 2 ^ 64 - w)
    omega

/-! ## Cells -/

theorem cellWidth_le (sch : ExtendedSchema) (fi : ℕ) : sch.cellWidth fi ≤ 255 := by
  unfold ExtendedSchema.cellWidth
  split
  · decide
  · have := (sch.widths.getD fi 0).toNat_lt
    dsimp only
    split <;> omega

theorem planWidth_le (sch : ExtendedSchema) (plan : RowCellPlan) (fi : ℕ) : planWidth sch plan fi ≤ 255 := by
  unfold planWidth
  split
  · exact cellWidth_le sch fi
  · decide

theorem isPacked_eq_true {plan : RowCellPlan} {fi : ℕ} : plan.isPacked fi = true ↔ plan.packedBools = true ∧ fi ∈ plan.boolSlots := by
  rw [RowCellPlan.isPacked, Bool.and_eq_true, List.contains_iff_mem]

/-- The alignment that a cell is given. -/
def appendAlign (sch : ExtendedSchema) (plan : RowCellPlan) (fi : ℕ) : CompactCell → ℕ
  | .i64 _ | .f64 _ => planWidth sch plan fi
  | .bool _ => if plan.packedBools then 1 else 8
  | .time _ => 8
  | .str _ => if sch.isPromoted fi then 2 else 1
  | .keyword _ => 2
  | .null => 1

/-- The bytes of an inline string behind its length prefix, padding included. -/
def strBytes (pre : ℕ) (s : String) : Res Bytes := do
  ensure (pre = 2 → ¬ (utf8 s).length > 65535) .valueOutOfRange
  .ok (leBytes (if pre = 2 then 2 else 4) (utf8 s).length ++ utf8 s ++ zeros (padLen 8 (pre + (utf8 s).length)))

/-- The bytes of a cell. -/
def appendBytes (sch : ExtendedSchema) (plan : RowCellPlan) (fi : ℕ) : CompactCell → Res Bytes
  | .i64 v => encodeIntCell v (planWidth sch plan fi)
  | .f64 v => encodeF64Cell v (planWidth sch plan fi)
  | .bool v => .ok (if plan.packedBools then [] else (if v then 1 else 0) :: zeros 7)
  | .time v => .ok (i64Bytes v)
  | .str s =>
    if sch.isPromoted fi then do
      ensure (s ∈ sch.valuePool) .dictMismatch
      .ok (leBytes 2 (sch.valuePool.idxOf s))
    else strBytes (sch.strLenPrefix fi) s
  | .keyword idx => .ok (leBytes 2 idx)
  | .null => .ok []

@[simp] theorem padLen_one (n : ℕ) : padLen 1 n = 0 := Nat.mod_one _

theorem padTo_one (b : Bytes) : padTo 1 b = b := by
  rw [padTo, padLen_one, zeros_zero, List.append_nil]

theorem appendStr_eq (body : Bytes) (pre : ℕ) (s : String) :
    appendStr body pre s = (body ++ ·) <$> strBytes pre s := by
  rw [appendStr, strBytes]
  by_cases hpre : pre = 2
  · rw [if_pos hpre, if_pos hpre]
    by_cases hlong : (utf8 s).length > 65535
    · rw [ensure_not (not_not.mpr hlong), err_bind, ensure_not (fun h => h hpre hlong), err_bind, map_err]
    · rw [ensure_of hlong, ok_bind, ensure_of (fun _ => hlong), ok_bind, map_ok]
      simp only [List.append_assoc]
  · rw [if_neg hpre, if_neg hpre, ensure_of (fun h => absurd h hpre), ok_bind, map_ok]
    simp only [List.append_assoc]

/-- A cell is padding to its alignment, and its bytes. -/
theorem appendCell_eq (body : Bytes) (fi : ℕ) (cell : CompactCell) (sch : ExtendedSchema) (plan : RowCellPlan) :
    appendCell body fi cell sch plan = (padTo (appendAlign sch plan fi cell) body ++ ·) <$> appendBytes sch plan fi cell := by
  cases cell with
  | i64 v | f64 v => rfl
  | bool v =>
    rw [appendCell, appendAlign, appendBytes, map_ok]
    by_cases hpacked : plan.packedBools = true
    · rw [if_pos hpacked, if_pos hpacked, if_pos hpacked, padTo_one, List.append_nil]
    · rw [if_neg hpacked, if_neg hpacked, if_neg hpacked]
  | time v => rfl
  | str s =>
    rw [appendCell, appendAlign, appendBytes]
    by_cases hprom : sch.isPromoted fi = true
    · rw [if_pos hprom, if_pos hprom, if_pos hprom]
      by_cases hmem : s ∈ sch.valuePool
      · rw [ensure_of hmem, ok_bind, ok_bind, map_ok]
      · rw [ensure_not hmem, err_bind, err_bind, map_err]
    · rw [if_neg hprom, if_neg hprom, if_neg hprom, appendStr_eq, padTo_one]
  | keyword idx => rfl
  | null =>
    rw [appendCell, appendAlign, appendBytes, map_ok, padTo_one, List.append_nil]

theorem appendCell_eq_ok {body body' : Bytes} {fi : ℕ} {cell : CompactCell} {sch : ExtendedSchema} {plan : RowCellPlan} :
    appendCell body fi cell sch plan = .ok body' ↔ ∃ bytes, appendBytes sch plan fi cell = .ok bytes ∧
      body' = padTo (appendAlign sch plan fi cell) body ++ bytes := by
  rw [appendCell_eq, map_eq_ok]
  constructor
  · rintro ⟨bytes, hbytes, rfl⟩
    exact ⟨bytes, hbytes, rfl⟩
  · rintro ⟨bytes, hbytes, rfl⟩
    exact ⟨bytes, hbytes, rfl⟩

/-- The widths that a number can be encoded in. -/
theorem encodeIntCell_length {v : Int64} {w : ℕ} {bytes : Bytes} (h : encodeIntCell v w = .ok bytes) :
    bytes.length = w ∧ (w = 1 ∨ w = 2 ∨ w = 4 ∨ w = 8) := by
  have htake : ∀ k ≤ 8, ((i64Bytes v).take k).length = k := by
    intro k hk
    rw [List.length_take, i64Bytes_length, Nat.min_eq_left hk]
  rw [encodeIntCell] at h
  split at h
  · rename_i hw
    obtain ⟨_, -, h⟩ := bind_eq_ok.mp h
    cases h
    exact ⟨by rw [htake 1 (by decide), hw], Or.inl hw⟩
  split at h
  · rename_i hw
    obtain ⟨_, -, h⟩ := bind_eq_ok.mp h
    cases h
    exact ⟨by rw [htake 2 (by decide), hw], Or.inr (Or.inl hw)⟩
  split at h
  · rename_i hw
    obtain ⟨_, -, h⟩ := bind_eq_ok.mp h
    cases h
    exact ⟨by rw [htake 4 (by decide), hw], Or.inr (Or.inr (Or.inl hw))⟩
  split at h
  · cases h
    rename_i hw
    exact ⟨by rw [i64Bytes_length, hw], Or.inr (Or.inr (Or.inr hw))⟩
  · cases h

theorem encodeF64Cell_length {v : F64} {w : ℕ} {bytes : Bytes} (h : encodeF64Cell v w = .ok bytes) :
    bytes.length = w ∧ (w = 4 ∨ w = 8) := by
  rw [encodeF64Cell] at h
  split at h
  · cases h
    rename_i hw
    exact ⟨by rw [leBytes_length, hw], Or.inl hw⟩
  split at h
  · cases h
    rename_i hw
    exact ⟨by rw [f64Bytes_length, hw], Or.inr hw⟩
  · cases h

/-! ## Reading numbers -/

/-- The integer of a two's complement word. -/
theorem toInt_eq_word (v : Int64) :
    v.toInt = if v.toUInt64.toNat < 2 ^ 63 then (v.toUInt64.toNat : ℤ) else v.toUInt64.toNat - 2 ^ 64 := by
  have hword : v.toBitVec.toNat = v.toUInt64.toNat := rfl
  have hhalf : 2 * v.toUInt64.toNat < 2 ^ 64 ↔ v.toUInt64.toNat < 2 ^ 63 := by omega
  rw [← Int64.toInt_toBitVec, BitVec.toInt_eq_toNat_cond, hword]
  simp only [hhalf]
  rfl

/-- What is read of the low `w` bytes of an integer. -/
def lowInt (w : ℕ) (v : Int64) : Int64 :=
  if w = 1 then .ofNat (v.toUInt64.toNat % 256) else signExtend w (v.toUInt64.toNat % 256 ^ w)

theorem signExtend_toInt {w n : ℕ} (hw : w = 2 ∨ w = 4 ∨ w = 8) (hn : n < 256 ^ w) :
    (signExtend w n).toInt = if n < 2 ^ (8 * w - 1) then (n : ℤ) else n - 2 ^ (8 * w) := by
  rw [signExtend]
  rcases hw with rfl | rfl | rfl
  all_goals
    split
    · exact Int64.toInt_ofNat_of_lt (by omega)
    · exact Int64.toInt_ofInt_of_le (by omega) (by omega)

theorem encodeIntCell_isOk {w : ℕ} {v : Int64} (hw : w = 1 ∨ w = 2 ∨ w = 4 ∨ w = 8) : (encodeIntCell v w).isOk = true ↔
    (w = 1 → 0 ≤ v.toInt ∧ v.toInt ≤ 255) ∧ (w = 2 → -32768 ≤ v.toInt ∧ v.toInt ≤ 32767) ∧
      (w = 4 → -2147483648 ≤ v.toInt ∧ v.toInt ≤ 2147483647) := by
  have hle : ∀ {a b : Int64}, a ≤ b ↔ a.toInt ≤ b.toInt := Int64.le_iff_toInt_le
  have hensure : ∀ {p : Prop} [Decidable p] {bytes : Bytes},
      ((ensure p NxsError.valueOutOfRange >>= fun _ => .ok bytes : Res Bytes)).isOk = true ↔ p := by
    intro p _ bytes
    by_cases hp : p
    · rw [ensure_of hp]
      exact ⟨fun _ => hp, fun _ => rfl⟩
    · rw [ensure_not hp]
      exact ⟨fun hno => Bool.noConfusion hno, fun hno => absurd hno hp⟩
  rw [encodeIntCell]
  rcases hw with rfl | rfl | rfl | rfl
  · rw [if_pos rfl, hensure, hle, hle]
    exact ⟨fun hk => ⟨fun _ => hk, fun hno => absurd hno (by decide), fun hno => absurd hno (by decide)⟩, fun hk => hk.1 rfl⟩
  · rw [if_neg (by decide), if_pos rfl, hensure, hle, hle]
    exact ⟨fun hk => ⟨fun hno => absurd hno (by decide), fun _ => hk, fun hno => absurd hno (by decide)⟩, fun hk => hk.2.1 rfl⟩
  · rw [if_neg (by decide), if_neg (by decide), if_pos rfl, hensure, hle, hle]
    exact ⟨fun hk => ⟨fun hno => absurd hno (by decide), fun hno => absurd hno (by decide), fun _ => hk⟩, fun hk => hk.2.2 rfl⟩
  · rw [if_neg (by decide), if_neg (by decide), if_neg (by decide), if_pos rfl]
    exact ⟨fun _ => ⟨fun hno => absurd hno (by decide), fun hno => absurd hno (by decide), fun hno => absurd hno (by decide)⟩,
      fun _ => rfl⟩

/-- The low bytes denote the integer exactly when the width is wide enough for it. -/
theorem lowInt_eq_iff {w : ℕ} {v : Int64} (hw : w = 1 ∨ w = 2 ∨ w = 4 ∨ w = 8) :
    lowInt w v = v ↔ (encodeIntCell v w).isOk = true := by
  have hv := toInt_eq_word v
  have hlt := v.toUInt64.toNat_lt
  rw [← Int64.toInt_inj, encodeIntCell_isOk hw, lowInt]
  have hmod := Nat.mod_lt v.toUInt64.toNat (show 0 < 256 ^ w from Nat.pow_pos (by decide))
  rcases hw with rfl | rfl | rfl | rfl
  · rw [if_pos rfl, Int64.toInt_ofNat_of_lt (by omega)]
    split at hv <;> omega
  all_goals
    rw [if_neg (by decide), signExtend_toInt (by decide) hmod]
    split at hv <;> split <;> omega

/-- What is read of an integer, or of its low bytes. -/
theorem decodeIntCell_at {d : Bytes} {p w : ℕ} {v : Int64} (hw : w = 1 ∨ w = 2 ∨ w = 4 ∨ w = 8) (hd : d.length < 2 ^ 63)
    (hat : At d p ((i64Bytes v).take w)) : decodeIntCell d p w = .ok (lowInt w v) := by
  rw [i64Bytes, leBytes_take _ (by omega)] at hat
  rw [decodeIntCell, lowInt]
  by_cases h1 : w = 1
  · subst h1
    rw [if_pos rfl, if_pos rfl]
    have hbyte : leBytes 1 v.toUInt64.toNat = [UInt8.ofNat v.toUInt64.toNat] := rfl
    rw [hbyte] at hat
    rw [get_at hat, okOr_ok, ok_bind, UInt8.toNat_ofNat']
  · rw [← leBytes_mod] at hat
    rw [if_neg h1, if_neg h1, if_pos (by omega), cellBytes_at hd hat (Nat.mod_lt _ (Nat.pow_pos (by decide))), ok_bind]

/-- An integer is written by its low bytes. -/
theorem encodeIntCell_bytes {v : Int64} {w : ℕ} {bytes : Bytes} (h : encodeIntCell v w = .ok bytes) :
    bytes = (i64Bytes v).take w := by
  have hlen : (i64Bytes v).length = 8 := i64Bytes_length v
  rcases (encodeIntCell_length h).2 with rfl | rfl | rfl | rfl
  · rw [encodeIntCell, if_pos rfl] at h
    obtain ⟨_, -, h⟩ := bind_eq_ok.mp h
    cases h
    rfl
  · rw [encodeIntCell, if_neg (by decide), if_pos rfl] at h
    obtain ⟨_, -, h⟩ := bind_eq_ok.mp h
    cases h
    rfl
  · rw [encodeIntCell, if_neg (by decide), if_neg (by decide), if_pos rfl] at h
    obtain ⟨_, -, h⟩ := bind_eq_ok.mp h
    cases h
    rfl
  · rw [encodeIntCell, if_neg (by decide), if_neg (by decide), if_neg (by decide), if_pos rfl] at h
    cases h
    rw [List.take_of_length_le (Nat.le_of_eq hlen)]

/-- The float that a cell of the width keeps. -/
def keptF64 (w : ℕ) (v : F64) : F64 := if w = 4 then .ofF32 v.toF32 else v

theorem decodeF64Cell_at {d bytes : Bytes} {p w : ℕ} {v : F64} (hd : d.length < 2 ^ 63) (h : encodeF64Cell v w = .ok bytes)
    (hat : At d p bytes) : decodeF64Cell d p w = .ok (keptF64 w v) := by
  rcases (encodeF64Cell_length h).2 with rfl | rfl
  · cases h
    rw [decodeF64Cell, if_pos rfl, cellBytes_at hd hat v.toF32_lt, ok_bind]
    rfl
  · cases h
    have hread : cellBytes 8 d p = .ok v.bits.toNat := cellBytes_at hd hat v.bits.toNat_lt
    rw [decodeF64Cell, if_neg (by decide), if_pos rfl, hread, ok_bind, f64Of_toNat]
    rfl

end Nyxis

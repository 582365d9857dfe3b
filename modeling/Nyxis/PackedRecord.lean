import Nyxis.Compact.DenseOffsets
import Nyxis.RowGetters

/-!
# PackedRecord — dense records in schema order, with packed bools

Without wire reordering the cells of a dense record stand in the order of the columns, with one word for all
the bools where the first bool column is.  `bodyPos` is the position in front of a column's cell, by the widths
and the strings in front of it.

* `getter_reads_iff`: the getter of a cell's kind returns the cell exactly when its value fits the cell.
* `packed_row_reads_iff`: every slot is found and read back exactly when the word is rounded up alike by mask
  and modulo, each time cell is looked for at its place, and the values fit.
-/

namespace Nyxis

open Lib Lib.Outcome

/-- The getter of the cell's kind returns its value; a float is the one that its cell keeps. -/
def Reader.ReadsCell (r : Reader) (offset slot width : ℕ) : CompactCell → Prop
  | .i64 v | .time v => r.rowGetI64 offset slot = .ok v
  | .f64 v => r.rowGetF64 offset slot = .ok (keptF64 width v)
  | .bool v => r.rowGetBool offset slot = .ok v
  | .str s => r.rowGetStr offset slot = .ok s
  | .null | .keyword _ => False

/-- A reader of a file with dense frames and the columns of `sch`. -/
structure DenseReader (r : Reader) (sch : ExtendedSchema) (opts : CompactOptions) : Prop where
  ext : r.extSchema = some sch
  plan : r.cellPlan = some (RowCellPlan.new sch opts.preambleFlags)
  dense : hasFlag r.flags FLAG_DENSE_FRAMES = true
  small : r.data.length < 2 ^ 63

/-- Every slot of the record at `offset` is found where the encoder put its cell, and read back. -/
def RowReads (r : Reader) (offset : ℕ) (cells : List (ℕ × CompactCell)) (sch : ExtendedSchema) (plan : RowCellPlan) : Prop :=
  ∀ slot < sch.keys.length, ∃ p cell, densePlace cells sch plan slot = .ok p ∧ r.resolve offset slot = .ok (offset + 9 + p) ∧
    cellAt cells slot = some cell ∧ r.ReadsCell offset slot (sch.cellWidth slot) cell

/-- The value fits its cell: a time the width it is read with, an inline string a four-byte length, and a
promoted one a two-byte index. -/
def ValueFits (sch : ExtendedSchema) (slot : ℕ) : CompactCell → Prop
  | .time v => (encodeIntCell v (sch.cellWidth slot)).isOk = true
  | .str s => if sch.isPromoted slot then sch.valuePool.idxOf s < 65536 else (utf8 s).length < 2 ^ 32
  | _ => True

instance (sch : ExtendedSchema) (slot : ℕ) : ∀ cell, Decidable (ValueFits sch slot cell)
  | .time v => inferInstanceAs (Decidable ((encodeIntCell v (sch.cellWidth slot)).isOk = true))
  | .str _ => inferInstanceAs (Decidable (if sch.isPromoted slot then _ else _))
  | .i64 _ | .f64 _ | .bool _ | .keyword _ | .null => .isTrue trivial

/-- The position in the body behind the cells of the columns in front of `fi`. -/
def bodyPos (cells : List (ℕ × CompactCell)) (sch : ExtendedSchema) (plan : RowCellPlan) (fi : ℕ) : ℕ :=
  densePos cells sch plan ((List.range fi).filter (denseHeld plan))

/-- What makes a dense record in schema order readable. -/
structure PackedRowFits (cells : List (ℕ × CompactCell)) (sch : ExtendedSchema) (plan : RowCellPlan) : Prop where
  word : ∀ first, plan.firstBool = some first → alignTo (bodyPos cells sch plan first) plan.boolWordBytes =
    bodyPos cells sch plan first + padLen plan.boolWordBytes (bodyPos cells sch plan first)
  times : ∀ fi < sch.keys.length, sch.sigil fi = SIGIL_TIME →
    alignTo (bodyPos cells sch plan fi) (sch.cellWidth fi) = bodyPos cells sch plan fi + padLen 8 (bodyPos cells sch plan fi)
  values : ∀ fi < sch.keys.length, ∀ cell, cellAt cells fi = some cell → ValueFits sch fi cell

/-! ## Options and plans -/

theorem bare_of_opts (sch : ExtendedSchema) (opts : CompactOptions) :
    (RowCellPlan.bare sch opts.preambleFlags).packedBools = opts.packedBools ∧
      (RowCellPlan.bare sch opts.preambleFlags).narrow = opts.narrowCells ∧
      (RowCellPlan.bare sch opts.preambleFlags).denseWireReorder = opts.denseWireReorder := by
  have hflags : ∀ a b c d e : Bool,
      let flags := (if a then FLAG_DENSE_FRAMES else 0) ||| (if b then FLAG_PACKED_BOOLS else 0) |||
        (if c then FLAG_NARROW_CELLS else 0) ||| (if d then FLAG_DELTA_TAIL else 0) |||
        (if e then FLAG_DENSE_WIRE_REORDER else 0)
      hasFlag flags FLAG_PACKED_BOOLS = b ∧ hasFlag flags FLAG_NARROW_CELLS = c ∧
        hasFlag flags FLAG_DENSE_WIRE_REORDER = e := by
    decide
  exact hflags _ _ _ _ _

theorem new_of_opts {sch : ExtendedSchema} {opts : CompactOptions} (horder : opts.denseWireReorder = false) :
    RowCellPlan.new sch opts.preambleFlags = RowCellPlan.bare sch opts.preambleFlags := by
  rw [RowCellPlan.new]
  dsimp only
  rw [(bare_of_opts sch opts).2.2, horder, Bool.false_and, if_neg Bool.false_ne_true]

theorem new_switches (sch : ExtendedSchema) (opts : CompactOptions) :
    (RowCellPlan.new sch opts.preambleFlags).packedBools = opts.packedBools ∧
      (RowCellPlan.new sch opts.preambleFlags).narrow = opts.narrowCells := by
  obtain ⟨hpacked, hnarrow, -⟩ := bare_of_opts sch opts
  rw [RowCellPlan.new]
  dsimp only
  split
  · exact ⟨hpacked, hnarrow⟩
  · exact ⟨hpacked, hnarrow⟩

/-- What a dense record consists of. -/
theorem encodeCompactRecord_full {cells : List (ℕ × CompactCell)} {sch : ExtendedSchema} {opts : CompactOptions} {record : Bytes}
    (hfull : (opts.denseFrames && ((List.range sch.keys.length).map fun i => cells.any fun c => c.1 == i).all id) = true)
    (h : encodeCompactRecord cells sch opts = .ok record) : ∃ body,
      encodeDenseBody cells sch (RowCellPlan.new sch opts.preambleFlags) = .ok body ∧
      record = leBytes 4 MAGIC_OBJ ++ leBytes 4 (9 + body.length) ++ [1] ++ body := by
  rw [encodeCompactRecord] at h
  dsimp only at h
  rw [hfull, if_pos rfl] at h
  obtain ⟨body, hbody, h⟩ := bind_eq_ok.mp h
  cases h
  exact ⟨body, hbody, rfl⟩

/-- A full row is framed densely. -/
theorem encodeCompactRecord_dense {cells : List (ℕ × CompactCell)} {sch : ExtendedSchema} {opts : CompactOptions}
    {record : Bytes} (hrow : FullRow cells sch) (hdense : opts.denseFrames = true)
    (h : encodeCompactRecord cells sch opts = .ok record) : ∃ body,
      encodeDenseBody cells sch (RowCellPlan.new sch opts.preambleFlags) = .ok body ∧
      record = leBytes 4 MAGIC_OBJ ++ leBytes 4 (9 + body.length) ++ [1] ++ body := by
  have hall : ((List.range sch.keys.length).map fun i => cells.any fun c => c.1 == i).all id = true := by
    rw [List.all_eq_true]
    intro b hb
    obtain ⟨i, hi, rfl⟩ := List.mem_map.mp hb
    obtain ⟨c, hc, hslot⟩ := hrow.full i (List.mem_range.mp hi)
    exact List.any_eq_true.mpr ⟨c, hc, beq_iff_eq.mpr hslot⟩
  refine encodeCompactRecord_full ?_ h
  rw [hdense, hall, Bool.and_self]

/-! ## Reading values -/

theorem get_at_getElem? {d seg : Bytes} {off k : ℕ} {b : UInt8} (hat : At d off seg) (hb : seg[k]? = some b) :
    get d (off + k) = .ok b := by
  obtain ⟨hk, rfl⟩ := List.getElem?_eq_some_iff.mp hb
  have htail := hat.drop (Nat.le_of_lt hk)
  rw [List.drop_eq_getElem_cons hk] at htail
  exact get_at htail

/-- The byte of the word that holds a bool's bit. -/
theorem packedByte {p : ℕ → Bool} {bw i : ℕ} {bytes : Bytes} (h : (range (bitBytes 8 p) 0 bw : Res Bytes) = .ok bytes)
    (hi : i / 8 < bw) : ∃ b, bytes[i / 8]? = some b ∧ b.toNat.testBit (i % 8) = p i := by
  rw [range] at h
  split at h
  · rename_i hle
    rw [bitBytes_length] at hle
    cases h
    have hbit := bitAt_bitBytes (ε := NxsError) p (show i < 8 * 8 by omega)
    rw [bitAt, index] at hbit
    obtain ⟨b, hb, hbit⟩ := bind_eq_ok.mp hbit
    injection hbit with hbit
    cases hget : (bitBytes 8 p)[i / 8]? with
    | none =>
      rw [hget] at hb
      cases hb
    | some b' =>
      rw [hget] at hb
      cases hb
      refine ⟨_, ?_, hbit⟩
      rw [List.drop_zero, List.getElem?_take_of_lt (by omega)]
      exact hget
  · cases h

section

variable {cells : List (ℕ × CompactCell)} {sch : ExtendedSchema} {plan : RowCellPlan} {r : Reader}

/-- A string read with the length that its prefix holds. -/
theorem inlineStr_iff {place pre : ℕ} {s : String} {bytes : Bytes} (hd : r.data.length < 2 ^ 63) (hpre : pre = 2 ∨ pre = 4)
    (h : strBytes pre s = .ok bytes) (hat : At r.data place bytes) :
    ((readStrCellLen r.data place pre).toOpt >>= fun len => r.inlineStr place pre len) = .ok s ↔ (utf8 s).length < 2 ^ 32 := by
  have hle := hat.le
  rw [strBytes_length hpre h] at hle
  rw [strBytes] at h
  obtain ⟨_, hfit, h⟩ := bind_eq_ok.mp h
  have hfit := ensure_eq_ok.mp hfit
  cases h
  have hwidth : (if pre = 2 then 2 else 4) = pre := by
    rcases hpre with rfl | rfl <;> rfl
  rw [hwidth, List.append_assoc] at hat
  obtain ⟨hlen, htext⟩ := at_append.mp hat
  rw [leBytes_length] at htext
  have htext := (at_append.mp htext).1
  have hread := readLE_at hlen (leBytes_length _ _) hd (ε := NxsError)
  rw [leNat_leBytes_mod] at hread
  rw [readStrCellLen, if_pos hpre, usizeAdd_of (by omega), ok_bind, ensure_of (by omega), ok_bind, hread, toOpt_ok, ok_bind]
  have hshort : (utf8 s).length < 256 ^ pre ↔ (utf8 s).length < 2 ^ 32 := by
    rcases hpre with rfl | rfl
    · have := hfit rfl
      omega
    · omega
  rw [← hshort]
  constructor
  · intro hstr
    by_contra hlong
    have hmod := Nat.mod_lt (utf8 s).length (Nat.pow_pos (show 0 < 256 by decide) (n := pre))
    rw [Reader.inlineStr, usizeAdd_of (by omega), ok_bind, usizeAdd_of (by omega), ok_bind, getRange, if_pos (by omega), ok_bind] at hstr
    have htrunc := congrArg List.length (utf8_fromUtf8 hstr)
    rw [List.length_take, List.length_drop] at htrunc
    omega
  · intro hlt
    rw [Nat.mod_eq_of_lt hlt]
    exact inlineStr_at htext hd

/-- A promoted string is read by its index as far as two bytes hold it. -/
theorem pooledStr_iff {s : String} (hmem : s ∈ sch.valuePool) :
    (ofOption sch.valuePool[sch.valuePool.idxOf s % 65536]? = .ok s) ↔ sch.valuePool.idxOf s < 65536 := by
  have hlt := List.idxOf_lt_length_iff.mpr hmem
  rw [ofOption_eq_ok]
  constructor
  · intro hget
    by_contra hlong
    have hmod := Nat.mod_lt (sch.valuePool.idxOf s) (show 0 < 65536 by decide)
    obtain ⟨hi, hval⟩ := List.getElem?_eq_some_iff.mp hget
    -- an earlier entry of the pool would be the first one with this text
    have hfirst : sch.valuePool.idxOf s % 65536 < sch.valuePool.findIdx (· == s) := by
      rw [← List.idxOf]
      omega
    have hne := List.not_of_lt_findIdx hfirst
    rw [hval, beq_self_eq_true] at hne
    cases hne
  · intro hshort
    rw [Nat.mod_eq_of_lt hshort, List.getElem?_eq_getElem hlt, List.getElem_idxOf]

/-- A reader of a file with the columns of `sch` and this plan. -/
structure PlanReader (r : Reader) (sch : ExtendedSchema) (plan : RowCellPlan) : Prop where
  ext : r.extSchema = some sch
  plan_eq : r.cellPlan = some plan
  small : r.data.length < 2 ^ 63

/-- The getters return nothing of a slot that is not found; a packed bool is looked for in dense frames. -/
theorem PlanReader.none_of_resolve (hr : PlanReader r sch plan) {offset slot : ℕ}
    (hdense : plan.isPacked slot = true → hasFlag r.flags FLAG_DENSE_FRAMES = true) (hres : r.resolve offset slot = none') :
    r.rowGetI64 offset slot = none' ∧ r.rowGetF64 offset slot = none' ∧ r.rowGetBool offset slot = none' ∧
      r.rowGetStr offset slot = none' := by
  refine ⟨?_, ?_, ?_, ?_⟩
  · rw [Reader.rowGetI64, hres, err_bind]
  · rw [Reader.rowGetF64, hres, err_bind]
  · rw [Reader.rowGetBool, hr.ext, hr.plan_eq]
    dsimp only
    cases hpacked : plan.isPacked slot with
    | true =>
      rw [Reader.resolve, hr.ext, hr.plan_eq, hdense hpacked] at hres
      dsimp only at hres
      rw [if_pos rfl, readPackedBool, hres, err_bind]
    | false => rw [if_neg Bool.false_ne_true, Reader.rowGetPlainBool, hres, err_bind]
  · rw [Reader.rowGetStr, hres, err_bind]

/-- What a reader needs to read the values of a record with packed bools. -/
structure ReadsPlan (r : Reader) (sch : ExtendedSchema) (plan : RowCellPlan) : Prop extends PlanReader r sch plan where
  dense : hasFlag r.flags FLAG_DENSE_FRAMES = true
  packed : plan.packedBools = true
  width : ∀ fi, sch.sigil fi ≠ SIGIL_STR → planWidth sch plan fi = sch.cellWidth fi

/-- Without narrow cells a width is kept for no column, and every cell has eight bytes. -/
theorem DenseReader.readsPlan {opts : CompactOptions} (hr : DenseReader r sch opts)
    (hlen : sch.sigils.length = sch.keys.length)
    (hkinds : ∀ fi < sch.keys.length, sch.sigil fi ∈ [SIGIL_INT, SIGIL_FLOAT, SIGIL_BOOL, SIGIL_TIME, SIGIL_STR])
    (hprom : ∀ fi, sch.isPromoted fi = true → sch.sigil fi = SIGIL_STR) (hpacked : opts.packedBools = true)
    (hwidths : opts.narrowCells = false → ∀ fi, sch.widths.getD fi 0 = 0) :
    ReadsPlan r sch (RowCellPlan.new sch opts.preambleFlags) := by
  obtain ⟨hpacked', hnarrow⟩ := new_switches sch opts
  refine ⟨⟨hr.ext, hr.plan, hr.small⟩, hr.dense, hpacked'.trans hpacked, fun fi hsig => ?_⟩
  rw [planWidth, hnarrow]
  cases hn : opts.narrowCells with
  | true => rw [if_pos rfl]
  | false =>
    have hown : sch.isPromoted fi = false := Bool.eq_false_of_not_eq_true fun hp => hsig (hprom fi hp)
    have hkey : sch.sigil fi ≠ SIGIL_KEYWORD := fun hk => by
      by_cases hfi : fi < sch.keys.length
      · have := hkinds fi hfi
        rw [hk] at this
        exact absurd this (by decide)
      · rw [ExtendedSchema.sigil, List.getD_eq_default _ _ (by rw [hlen]; omega)] at hk
        exact absurd hk (by decide)
    rw [if_neg Bool.false_ne_true, ExtendedSchema.cellWidth, hown, beq_eq_false_iff_ne.mpr hkey, hwidths hn fi]
    rfl

/-- A packed bool is read from its bit of the word. -/
theorem reads_packed (hr : PlanReader r sch plan) (hdense : hasFlag r.flags FLAG_DENSE_FRAMES = true) {p : ℕ → Bool}
    {offset slot place : ℕ} {bytes : Bytes} (hpacked : plan.isPacked slot = true)
    (hword : (range (bitBytes 8 p) 0 plan.boolWordBytes : Res Bytes) = .ok bytes)
    (hat : At r.data place bytes) (hres : r.resolve offset slot = .ok (place + holderByte plan slot)) :
    r.rowGetBool offset slot = .ok (p (plan.boolSlots.idxOf slot)) := by
  have hmem := (isPacked_eq_true.mp hpacked).2
  have hbw := holderByte_lt hpacked
  rw [Reader.resolve, hr.ext, hr.plan_eq, hdense] at hres
  rw [holderByte, if_pos hpacked] at hbw hres
  obtain ⟨b, hb, hbit⟩ := packedByte hword hbw
  rw [Reader.rowGetBool, hr.ext, hr.plan_eq]
  dsimp only at hres ⊢
  rw [if_pos hpacked, readPackedBool, hres, ok_bind, position, if_pos hmem, ok_bind, get_at_getElem? hat hb, ok_bind, hbit]

/-- What is in a cell of its own is read back by the getter of its kind exactly when its value fits. -/
theorem reads_own_iff (hr : PlanReader r sch plan) {offset slot place : ℕ} {bytes : Bytes} {cell : CompactCell}
    (hkind : cell.sigil ∈ [SIGIL_INT, SIGIL_FLOAT, SIGIL_TIME, SIGIL_STR])
    (hwidth : cell.sigil ≠ SIGIL_STR → planWidth sch plan slot = sch.cellWidth slot)
    (hbytes : appendBytes sch plan slot cell = .ok bytes) (hat : At r.data place bytes)
    (hres : r.resolve offset slot = .ok place) :
    r.ReadsCell offset slot (sch.cellWidth slot) cell ↔ ValueFits sch slot cell := by
  cases cell with
  | i64 v =>
    rw [appendBytes, hwidth (show SIGIL_INT ≠ SIGIL_STR by decide)] at hbytes
    have hw := (encodeIntCell_length hbytes).2
    refine ⟨fun _ => trivial, fun _ => ?_⟩
    have hfits : (encodeIntCell v (sch.cellWidth slot)).isOk = true := isOk_iff.mpr ⟨bytes, hbytes⟩
    rw [Reader.ReadsCell, Reader.rowGetI64, hres, ok_bind, hr.ext]
    dsimp only
    rw [encodeIntCell_bytes hbytes] at hat
    rw [decodeIntCell_at hw hr.small hat, toOpt_ok, (lowInt_eq_iff hw).mpr hfits]
  | f64 v =>
    rw [appendBytes, hwidth (show SIGIL_FLOAT ≠ SIGIL_STR by decide)] at hbytes
    refine ⟨fun _ => trivial, fun _ => ?_⟩
    rw [Reader.ReadsCell, Reader.rowGetF64, hres, ok_bind, hr.ext]
    dsimp only
    rw [decodeF64Cell_at hr.small hbytes hat, toOpt_ok]
  | time v =>
    cases hbytes
    rw [Reader.ReadsCell, Reader.rowGetI64, hres, ok_bind, hr.ext, ValueFits]
    dsimp only
    by_cases hw : sch.cellWidth slot = 1 ∨ sch.cellWidth slot = 2 ∨ sch.cellWidth slot = 4 ∨ sch.cellWidth slot = 8
    · rw [decodeIntCell_at hw hr.small (hat.take _), toOpt_ok, ← lowInt_eq_iff hw]
      exact ⟨fun heq => by injection heq, fun heq => by rw [heq]⟩
    · -- a width that integers neither are written nor read with
      rw [decodeIntCell, if_neg (fun h => hw (Or.inl h)), if_neg (fun h => hw (Or.inr h)), toOpt_err]
      refine ⟨fun heq => (by cases heq), fun hok => ?_⟩
      obtain ⟨_, hok⟩ := isOk_iff.mp hok
      exact absurd (encodeIntCell_length hok).2 hw
  | str s =>
    rw [appendBytes] at hbytes
    rw [Reader.ReadsCell, Reader.rowGetStr, hres, ok_bind, hr.ext, ValueFits]
    dsimp only
    by_cases hprom : sch.isPromoted slot = true
    · rw [if_pos hprom] at hbytes ⊢
      rw [if_pos hprom]
      obtain ⟨_, hmem, hbytes⟩ := bind_eq_ok.mp hbytes
      cases hbytes
      rw [getLE_at hat (leBytes_length _ _) hr.small, ok_bind, leNat_leBytes_mod]
      exact pooledStr_iff (ensure_eq_ok.mp hmem)
    · rw [if_neg hprom] at hbytes ⊢
      rw [if_neg hprom]
      exact inlineStr_iff hr.small (strLenPrefix_cases (Bool.eq_false_of_not_eq_true hprom)) hbytes hat
  | bool v => exact absurd hkind (show SIGIL_BOOL ∉ [SIGIL_INT, SIGIL_FLOAT, SIGIL_TIME, SIGIL_STR] by decide)
  | null => exact absurd hkind (show SIGIL_NULL ∉ [SIGIL_INT, SIGIL_FLOAT, SIGIL_TIME, SIGIL_STR] by decide)
  | keyword idx => exact absurd hkind (show SIGIL_KEYWORD ∉ [SIGIL_INT, SIGIL_FLOAT, SIGIL_TIME, SIGIL_STR] by decide)

theorem exists_bool_of_sigil {cell : CompactCell} (h : cell.sigil = SIGIL_BOOL) : ∃ v, cell = .bool v := by
  cases cell with
  | bool v => exact ⟨v, rfl⟩
  | i64 _ | f64 _ | str _ | time _ | null | keyword _ =>
    dsimp only [CompactCell.sigil] at h
    exact absurd h (by decide)

theorem mem_kinds {s : UInt8} (h : s ∈ [SIGIL_INT, SIGIL_FLOAT, SIGIL_BOOL, SIGIL_TIME, SIGIL_STR]) :
    s = SIGIL_BOOL ∨ s ∈ [SIGIL_INT, SIGIL_FLOAT, SIGIL_TIME, SIGIL_STR] := by
  simp only [List.mem_cons, List.not_mem_nil, or_false] at h ⊢
  tauto

/-- The getter of a cell's kind, at the place of the cell, returns the cell exactly when its value fits. -/
theorem getter_reads_iff (h : DenseRecord cells sch plan) (hr : ReadsPlan r sch plan) {offset slot place : ℕ} {bytes : Bytes}
    {cell : CompactCell} (hslot : slot < sch.keys.length) (hbytes : denseBytes cells sch plan (denseHolder plan slot) = .ok bytes)
    (hat : At r.data place bytes) (hres : r.resolve offset slot = .ok (place + holderByte plan slot))
    (hcell : cellAt cells slot = some cell) :
    r.ReadsCell offset slot (sch.cellWidth slot) cell ↔ ValueFits sch slot cell := by
  obtain ⟨cell', hcell', hsig⟩ := h.row.cell hslot
  rw [hcell] at hcell'
  cases hcell'
  have hkind := h.columns.kinds slot hslot
  rw [← hsig] at hkind
  rcases mem_kinds hkind with hbool | hown
  · have hpacked := (h.columns.isPacked_iff h.plan_of hslot).mpr ⟨hr.packed, hsig.symm.trans hbool⟩
    rw [denseBytes, if_pos (holder_of_packed h.plan_of.firstBool hpacked).2] at hbytes
    have hread := reads_packed hr.toPlanReader hr.dense hpacked hbytes hat hres
    rw [List.getElem?_eq_getElem (List.idxOf_lt_length_iff.mpr (isPacked_eq_true.mp hpacked).2), List.getElem_idxOf,
      Option.any_some, hcell] at hread
    obtain ⟨v, rfl⟩ := exists_bool_of_sigil hbool
    refine ⟨fun _ => trivial, fun _ => hread.trans ?_⟩
    cases v <;> rfl
  · -- what is not a bool is in a cell of its own
    have hpacked : plan.isPacked slot = false := Bool.eq_false_of_not_eq_true fun hp => by
      rw [hsig, ((h.columns.isPacked_iff h.plan_of hslot).mp hp).2] at hown
      exact absurd hown (by decide)
    obtain ⟨hself, hbyte⟩ := holder_of_unpacked hpacked
    rw [hself, denseBytes, hpacked, if_neg Bool.false_ne_true, hcell, ofOption_some, okOr_ok, ok_bind] at hbytes
    rw [hbyte, Nat.add_zero] at hres
    exact reads_own_iff hr.toPlanReader hown (fun hno => hr.width slot (hsig ▸ hno)) hbytes hat hres

/-! ## Records in schema order -/

theorem range_takeWhile {n fi : ℕ} (h : fi < n) : (List.range n).takeWhile (· != fi) = List.range fi := by
  have hsplit : List.range n = List.range fi ++ (fi :: (List.range' (fi + 1) (n - fi - 1))) := by
    rw [List.range_eq_range', List.range_eq_range', ← List.range'_succ, Nat.sub_add_cancel (by omega)]
    have := List.range'_append_1 (s := 0) (m := fi) (n := n - fi)
    rw [Nat.zero_add, Nat.add_sub_cancel' (by omega)] at this
    exact this.symm
  have hfront : ∀ f ∈ List.range fi, (f != fi) = true := fun f hf =>
    bne_iff_ne.mpr (Nat.ne_of_lt (List.mem_range.mp hf))
  rw [hsplit, List.takeWhile_append_of_pos hfront, List.takeWhile_cons_of_neg (by rw [bne_self_eq_false]; exact Bool.false_ne_true),
    List.append_nil]

/-- In schema order the cells in front of a slot's cell are those of the columns in front of it. -/
theorem schemaOrder_split (horder : plan.denseWireReorder = false) {pre rest : List ℕ} {fi : ℕ}
    (hsplit : heldOrder sch plan = pre ++ fi :: rest) (hpre : fi ∉ pre) :
    pre = (List.range fi).filter (denseHeld plan) := by
  have hmem : fi ∈ heldOrder sch plan := hsplit ▸ List.mem_append_right _ List.mem_cons_self
  obtain ⟨hin, hheld⟩ := List.mem_filter.mp hmem
  have hlt := denseWireOrder_lt hin
  rw [heldOrder, denseWireOrder, if_pos horder] at hsplit
  have hwhile := takeWhile_filter hheld hsplit hpre
  rw [range_takeWhile hlt] at hwhile
  exact hwhile.symm

/-- A reader finds and reads back every slot of a dense record in schema order exactly when the word of the
packed bools and the time cells are looked for where they stand, and the values fit their cells. -/
theorem packed_fits_iff (h : DenseRecord cells sch plan) (hr : ReadsPlan r sch plan) (horder : plan.denseWireReorder = false)
    (hgeneric : plan.denseFixedBodyOffsets = none) {offset : ℕ} {body : Bytes} (hbody : encodeDenseBody cells sch plan = .ok body)
    (hhdr : get r.data (offset + 8) = .ok 1) (hat : At r.data (offset + 9) body) :
    RowReads r offset cells sch plan ↔ PackedRowFits cells sch plan := by
  have hheld := denseBodyAt_of hbody hr.small hat
  have hle := hat.le
  have hsmall := hr.small
  have hnd : (heldOrder sch plan).Nodup := denseWireOrder_nodup.filter _
  have hresolve : ∀ {slot q : ℕ}, r.resolve offset slot = .ok q ↔
      denseWalk r.data (offset + 9) slot sch plan (denseWireOrder sch plan) 0 = .ok (some q) := by
    intro slot q
    rw [Reader.resolve, hr.ext, hr.plan_eq, hr.dense]
    dsimp only
    rw [resolveFieldOffset, if_pos rfl, checkedAdd_of (by omega), ok_bind, hhdr, ok_bind, if_pos (by decide), denseFieldOffset,
      usizeAdd_of (by omega), ok_bind, hgeneric]
    dsimp only [Option.bind_none]
    cases denseWalk r.data (offset + 9) slot sch plan (denseWireOrder sch plan) 0 with
    | ok o =>
      rw [toOpt_ok, ok_bind, ofOption_eq_ok]
      exact ⟨fun heq => by rw [heq], fun heq => by injection heq⟩
    | err e => exact iff_of_false (fun heq => by cases heq) fun heq => by cases heq
    | panic => exact iff_of_false (fun heq => by cases heq) fun heq => by cases heq
  -- the cell that holds a slot's value, and what is read there
  have hvalue : ∀ slot < sch.keys.length, ∀ p cell, densePlace cells sch plan slot = .ok p →
      r.resolve offset slot = .ok (offset + 9 + p) → cellAt cells slot = some cell →
      (r.ReadsCell offset slot (sch.cellWidth slot) cell ↔ ValueFits sch slot cell) := by
    intro slot hslot p cell hp hres hcell
    obtain ⟨pre, rest, hsplit, hpre⟩ := heldOrder_split h.planned hslot
    rw [densePlace_eq hheld.held hheld.encoded hsplit hpre] at hp
    cases hp
    obtain ⟨-, -, bytes, hbytes, hplace⟩ := denseFold_at (hsplit ▸ hheld.held) (hsplit ▸ hheld.encoded)
    rw [← Nat.add_assoc] at hres
    exact getter_reads_iff h hr hslot hbytes (hat.trans hplace) hres hcell
  have hsplitAt : ∀ {pre rest : List ℕ} {fi : ℕ}, heldOrder sch plan = pre ++ fi :: rest →
      densePos cells sch plan pre = bodyPos cells sch plan fi := by
    intro pre rest fi hsplit
    have hpre : fi ∉ pre := fun hin => by
      rw [hsplit] at hnd
      exact (List.nodup_append.mp hnd).2.2 _ hin _ List.mem_cons_self rfl
    rw [schemaOrder_split horder hsplit hpre, bodyPos]
  constructor
  · intro hreads
    have halike := (denseWalk_places_iff h hheld).mp fun slot hslot => by
      obtain ⟨p, cell, hp, hres, -⟩ := hreads slot hslot
      exact ⟨p, hp, hresolve.mp hres⟩
    have hplaced : ∀ fi < sch.keys.length, denseHeld plan fi = true → PlacedAlike sch plan (bodyPos cells sch plan fi) fi := by
      intro fi hfi hin
      obtain ⟨pre, rest, hsplit⟩ := List.append_of_mem (List.mem_filter.mpr ⟨(mem_denseWireOrder hin).mpr hfi, hin⟩ :
        fi ∈ heldOrder sch plan)
      rw [← hsplitAt hsplit]
      exact halike.placed _ _ _ hsplit
    refine ⟨fun first hfirst => ?_, fun fi hfi hsig => ?_, fun fi hfi cell hcell => ?_⟩
    · obtain ⟨hpacked, hlt, -⟩ := first_packed h.planned hr.packed hfirst
      have := hplaced first hlt (by rw [denseHeld, hfirst, beq_self_eq_true, Bool.or_true])
      rw [PlacedAlike, if_pos hpacked] at this
      exact this
    · have hpacked : plan.isPacked fi = false := Bool.eq_false_of_not_eq_true fun hp => by
        have := ((h.columns.isPacked_iff h.plan_of hfi).mp hp).2
        rw [hsig] at this
        exact absurd this (by decide)
      have := hplaced fi hfi (by rw [denseHeld, hpacked, Bool.not_false, Bool.true_or])
      rw [PlacedAlike, hpacked, if_neg Bool.false_ne_true] at this
      rw [← hr.width fi (by rw [hsig]; decide)]
      exact this (Or.inl hsig)
    · obtain ⟨p, cell', hp, hres, hcell', hread⟩ := hreads fi hfi
      rw [hcell] at hcell'
      cases hcell'
      exact (hvalue fi hfi p cell hp hres hcell).mp hread
  · intro hfits
    have halike : WalkedAlike cells sch plan (heldOrder sch plan) := by
      refine ⟨fun pre fi rest hsplit => ?_, fun pre fi next rest hsplit => ⟨fun hnarrow => ?_, ?_⟩⟩
      · have hmem : fi ∈ heldOrder sch plan := hsplit ▸ List.mem_append_right _ List.mem_cons_self
        have hfi := hheld.slots fi hmem
        rw [hsplitAt hsplit, PlacedAlike]
        by_cases hpacked : plan.isPacked fi = true
        · rw [if_pos hpacked]
          have hin := hheld.held fi hmem
          rw [denseHeld, hpacked, Bool.not_true, Bool.false_or, beq_iff_eq] at hin
          exact hfits.word fi hin
        · rw [if_neg hpacked]
          rintro (hsig | hsig)
          · rw [hr.width fi (by rw [hsig]; decide)]
            exact hfits.times fi hfi hsig
          · exact absurd ((h.columns.isPacked_iff h.plan_of hfi).mpr ⟨hr.packed, hsig⟩) hpacked
      · have hoff := hnarrow.1
        rw [hr.packed] at hoff
        cases hoff
      · rintro ⟨s, hs, hpre, hlong⟩
        have hmem : fi ∈ heldOrder sch plan := hsplit ▸ List.mem_append_right _ List.mem_cons_self
        have hfit := hfits.values fi (hheld.slots fi hmem) _ hs
        have hprom : sch.isPromoted fi ≠ true := fun hp => by
          rw [ExtendedSchema.strLenPrefix, if_pos hp] at hpre
          cases hpre
        rw [ValueFits, if_neg hprom] at hfit
        omega
    intro slot hslot
    obtain ⟨p, hp, hwalk⟩ := (denseWalk_places_iff h hheld).mpr halike slot hslot
    obtain ⟨cell, hcell, -⟩ := h.row.cell hslot
    have hres := hresolve.mpr hwalk
    exact ⟨p, cell, hp, hres, hcell, (hvalue slot hslot p cell hp hres hcell).mpr (hfits.values slot hslot cell hcell)⟩

end

/-- Dense records in schema order with packed bools: every slot is found and read back exactly when the record
fits. -/
theorem packed_row_reads_iff {cells : List (ℕ × CompactCell)} {sch : ExtendedSchema} {opts : CompactOptions} {r : Reader}
    {offset : ℕ} {record : Bytes} (hcols : DenseColumns sch) (hrow : FullRow cells sch)
    (hopts : opts.denseFrames = true ∧ opts.packedBools = true ∧ opts.denseWireReorder = false)
    (hwidths : opts.narrowCells = false → ∀ fi, sch.widths.getD fi 0 = 0) (hr : DenseReader r sch opts)
    (hrec : encodeCompactRecord cells sch opts = .ok record) (hat : At r.data offset record) :
    RowReads r offset cells sch (RowCellPlan.new sch opts.preambleFlags) ↔
      PackedRowFits cells sch (RowCellPlan.new sch opts.preambleFlags) := by
  obtain ⟨hdense, hpacked, horder⟩ := hopts
  obtain ⟨body, hbody, rfl⟩ := encodeCompactRecord_dense hrow hdense hrec
  obtain ⟨hfront, hbodyAt⟩ := at_append.mp hat
  obtain ⟨-, hhdr⟩ := at_append.mp hfront
  have hreads := hr.readsPlan hcols.lengths hcols.kinds hcols.promoted hpacked hwidths
  rw [new_of_opts horder] at hbody hreads ⊢
  have horder' := (bare_of_opts sch opts).2.2
  refine packed_fits_iff ⟨hcols, hrow, planOf_bare sch _⟩ hreads (horder'.trans horder) rfl hbody ?_ ?_
  · exact get_at hhdr
  · simp only [List.length_append, leBytes_length, List.length_cons, List.length_nil] at hbodyAt
    exact hbodyAt

/-! ## A record that is read back, and one that is not -/

/-- All compact encodings, with the cells in schema order. -/
def schemaOrder : CompactOptions := { CompactOptions.compact with denseWireReorder := false }

/-- A reader over one record. -/
def recordReader (record : Bytes) (sch : ExtendedSchema) : Reader where
  data := record
  flags := schemaOrder.preambleFlags
  keys := sch.keys
  keySigils := sch.sigils
  extSchema := some sch
  cellPlan := some (RowCellPlan.new sch schemaOrder.preambleFlags)
  recordCount := 1
  tailStart := 0
  deltaTail := none
  layout := .row
  colBufOff := []
  colBufLen := []

theorem recordReader_dense {record : Bytes} {sch : ExtendedSchema} (h : record.length < 2 ^ 63) :
    DenseReader (recordReader record sch) sch schemaOrder :=
  ⟨rfl, rfl, show hasFlag schemaOrder.preambleFlags FLAG_DENSE_FRAMES = true by decide, h⟩

theorem packed_row_reads_user : RowReads (recordReader userRecord userSchema) 0 userRow userSchema
      (RowCellPlan.new userSchema schemaOrder.preambleFlags) ↔
    PackedRowFits userRow userSchema (RowCellPlan.new userSchema schemaOrder.preambleFlags) :=
  packed_row_reads_iff
    ⟨rfl, by decide, fun fi hp => absurd hp (by simp [ExtendedSchema.isPromoted, userSchema, hasFlag]), fun fi => by
      rcases fi with _ | _ | _ | fi <;> simp [userSchema]⟩
    ⟨by decide, by decide, by decide⟩ (by decide) (fun hno => absurd hno (by decide)) (recordReader_dense (by decide))
    (by decide +kernel) (at_self _)

/-- An int of one byte and seventeen bools, whose word has three bytes. -/
def flagsSchema : ExtendedSchema where
  keys := ["id", "b0", "b1", "b2", "b3", "b4", "b5", "b6", "b7", "b8", "b9", "b10", "b11", "b12", "b13", "b14", "b15", "b16"]
  sigils := SIGIL_INT :: List.replicate 17 SIGIL_BOOL
  widths := [1]
  fieldAttrs := []
  valuePool := []

def flagsRow : List (ℕ × CompactCell) := (0, .i64 7) :: (List.range 17).map fun i => (i + 1, .bool true)

def flagsRecord : Bytes := [79, 88, 89, 78, 15, 0, 0, 0, 1, 7, 0, 0, 255, 255, 1]

/-- The word is written at position 3 and looked for at position 1, so that a `true` is read as `false`. -/
theorem packed_row_not_read : DenseColumns flagsSchema ∧ FullRow flagsRow flagsSchema ∧ flagsSchema.boolSlots.length ≤ 64 ∧
    encodeCompactRecord flagsRow flagsSchema schemaOrder = .ok flagsRecord ∧
    DenseReader (recordReader flagsRecord flagsSchema) flagsSchema schemaOrder ∧
    cellAt flagsRow 1 = some (.bool true) ∧ (recordReader flagsRecord flagsSchema).rowGetBool 0 1 = .ok false ∧
    ¬ RowReads (recordReader flagsRecord flagsSchema) 0 flagsRow flagsSchema
      (RowCellPlan.new flagsSchema schemaOrder.preambleFlags) := by
  have hfalse : (recordReader flagsRecord flagsSchema).rowGetBool 0 1 = .ok false := by decide +kernel
  have hcell : cellAt flagsRow 1 = some (.bool true) := by decide +kernel
  refine ⟨⟨by decide +kernel, by decide +kernel, fun fi hp => absurd hp (by simp [ExtendedSchema.isPromoted, flagsSchema, hasFlag]),
    fun fi => by rcases fi with _ | fi <;> simp [flagsSchema]⟩, ⟨by decide +kernel, by decide +kernel, by decide +kernel⟩,
    by decide +kernel, by decide +kernel, recordReader_dense (by decide), hcell, hfalse, fun hreads => ?_⟩
  obtain ⟨p, cell, -, -, hcell', hread⟩ := hreads 1 (by decide)
  rw [hcell] at hcell'
  cases hcell'
  rw [Reader.ReadsCell, hfalse] at hread
  cases hread

end Nyxis

import Nyxis.Compact.Dense

/-!
# Compact.DenseWalk — when a reader's walk finds every cell of a dense record

A reader rounds positions up with a mask and takes the length of a cell from the schema, the encoder rounds
with a modulo and knows the cell.  The two are followed side by side: `PlacedAlike` says that a cell is looked
for where it stands, `PassedAlike` that the walk past a cell leads to the next one.

* `foundBehind_step`: behind a cell that is found, the next one is found exactly when both hold.
* `foundBehind_iff`: the walk finds every cell exactly when both hold all along the wire order.
* `denseWalk_places_iff`: the same of the positions that are returned for the slots.
-/

namespace Nyxis

open Lib Lib.Outcome

section

variable {cells : List (ℕ × CompactCell)} {sch : ExtendedSchema} {plan : RowCellPlan}

/-! ## Places and steps that agree -/

/-- The mask and the modulo put the word of the packed bools, or a cell of eight bytes, at the same place. -/
def PlacedAlike (sch : ExtendedSchema) (plan : RowCellPlan) (pos fi : ℕ) : Prop :=
  if plan.isPacked fi then alignTo pos plan.boolWordBytes = pos + padLen plan.boolWordBytes pos
  else sch.sigil fi = SIGIL_TIME ∨ sch.sigil fi = SIGIL_BOOL → alignTo pos (planWidth sch plan fi) = pos + padLen 8 pos

/-- The slot is an unpacked bool, which takes eight bytes, and a reader takes it for one of fewer. -/
def NarrowBool (sch : ExtendedSchema) (plan : RowCellPlan) (fi : ℕ) : Prop :=
  plan.packedBools = false ∧ sch.sigil fi = SIGIL_BOOL ∧ planWidth sch plan fi ≠ 8

/-- The slot holds an inline string whose length does not fit its four-byte prefix. -/
def LongString (cells : List (ℕ × CompactCell)) (sch : ExtendedSchema) (fi : ℕ) : Prop :=
  ∃ s, cellAt cells fi = some (.str s) ∧ sch.strLenPrefix fi = 4 ∧ 2 ^ 32 ≤ (utf8 s).length

/-- A walk that has found the cell of a slot finds the next one. -/
def PassedAlike (cells : List (ℕ × CompactCell)) (sch : ExtendedSchema) (plan : RowCellPlan) (fi next : ℕ) : Prop :=
  (NarrowBool sch plan fi → sch.sigil next ≠ SIGIL_STR ∧ planWidth sch plan next = 8) ∧ ¬ LongString cells sch fi

/-- The slots of a dense record with the columns of its kinds. -/
structure DenseRecord (cells : List (ℕ × CompactCell)) (sch : ExtendedSchema) (plan : RowCellPlan) : Prop where
  columns : DenseColumns sch
  row : FullRow cells sch
  plan_of : PlanOf sch plan

theorem DenseRecord.planned (h : DenseRecord cells sch plan) : Planned sch plan := ⟨h.columns.lengths, h.plan_of⟩

theorem cellPlace_of_cell {pos fi : ℕ} {cell : CompactCell} (hpacked : plan.isPacked fi = false)
    (hcell : cellAt cells fi = some cell) :
    cellPlace cells sch plan pos fi = pos + padLen (appendAlign sch plan fi cell) pos := by
  rw [cellPlace, denseAlign, hpacked, if_neg Bool.false_ne_true, hcell, Option.map_some, Option.getD_some]

theorem denseSize_of_cell {fi : ℕ} {cell : CompactCell} (hpacked : plan.isPacked fi = false)
    (hcell : cellAt cells fi = some cell) : denseSize cells sch plan fi = cellSize sch plan fi cell := by
  rw [denseSize, hpacked, if_neg Bool.false_ne_true, hcell, Option.map_some, Option.getD_some]

theorem cellPlace_packed {pos fi : ℕ} (hpacked : plan.isPacked fi = true) :
    cellPlace cells sch plan pos fi = pos + padLen plan.boolWordBytes pos := by
  rw [cellPlace, denseAlign, if_pos hpacked]

/-- The cells by kind, and the place at which a reader looks for each. -/
inductive DenseCell (cells : List (ℕ × CompactCell)) (sch : ExtendedSchema) (plan : RowCellPlan) (fi : ℕ) : Prop where
  | packed (h : plan.isPacked fi = true)
  | number (cell : CompactCell) (hpacked : plan.isPacked fi = false) (hcell : cellAt cells fi = some cell)
      (halign : appendAlign sch plan fi cell = planWidth sch plan fi) (hsize : cellSize sch plan fi cell = planWidth sch plan fi)
      (hsig : sch.sigil fi = SIGIL_INT ∨ sch.sigil fi = SIGIL_FLOAT)
  | eight (cell : CompactCell) (hpacked : plan.isPacked fi = false) (hcell : cellAt cells fi = some cell)
      (halign : appendAlign sch plan fi cell = 8) (hsize : cellSize sch plan fi cell = 8)
      (hsig : sch.sigil fi = SIGIL_TIME ∨ sch.sigil fi = SIGIL_BOOL) (hbool : sch.sigil fi = SIGIL_BOOL → plan.packedBools = false)
  | promoted (s : String) (hpacked : plan.isPacked fi = false) (hcell : cellAt cells fi = some (.str s))
      (hsig : sch.sigil fi = SIGIL_STR) (hprom : sch.isPromoted fi = true)
  | inline (s : String) (hpacked : plan.isPacked fi = false) (hcell : cellAt cells fi = some (.str s))
      (hsig : sch.sigil fi = SIGIL_STR) (hprom : sch.isPromoted fi = false)

theorem DenseRecord.cell (h : DenseRecord cells sch plan) {fi : ℕ} (hfi : fi < sch.keys.length) : DenseCell cells sch plan fi := by
  cases hpacked : plan.isPacked fi with
  | true => exact .packed hpacked
  | false =>
    obtain ⟨cell, hcell, hsig⟩ := h.row.cell hfi
    have hkind := h.columns.kinds fi hfi
    rw [← hsig] at hkind
    cases cell with
    | i64 v => exact .number _ hpacked hcell rfl rfl (Or.inl hsig.symm)
    | f64 v => exact .number _ hpacked hcell rfl rfl (Or.inr hsig.symm)
    | bool v =>
      have hoff : plan.packedBools = false := Bool.eq_false_of_not_eq_true fun hon => by
        have := (h.columns.isPacked_iff h.plan_of hfi).mpr ⟨hon, hsig.symm⟩
        rw [hpacked] at this
        cases this
      refine .eight _ hpacked hcell ?_ ?_ (Or.inr hsig.symm) fun _ => hoff
      · rw [appendAlign, hoff, if_neg Bool.false_ne_true]
      · rw [cellSize, hoff, if_neg Bool.false_ne_true]
    | time v =>
      refine .eight _ hpacked hcell rfl rfl (Or.inl hsig.symm) fun hbool => ?_
      rw [← hsig] at hbool
      exact absurd hbool (show SIGIL_TIME ≠ SIGIL_BOOL by decide)
    | str s =>
      cases hprom : sch.isPromoted fi with
      | true => exact .promoted s hpacked hcell hsig.symm hprom
      | false => exact .inline s hpacked hcell hsig.symm hprom
    | null =>
      exact absurd hkind (show SIGIL_NULL ∉ [SIGIL_INT, SIGIL_FLOAT, SIGIL_BOOL, SIGIL_TIME, SIGIL_STR] by decide)
    | keyword idx =>
      exact absurd hkind (show SIGIL_KEYWORD ∉ [SIGIL_INT, SIGIL_FLOAT, SIGIL_BOOL, SIGIL_TIME, SIGIL_STR] by decide)

/-- A cell that is neither packed nor a string is looked for at the alignment of its width. -/
theorem walkPlace_fixed (h : DenseRecord cells sch plan) {pos fi : ℕ} (hpacked : plan.isPacked fi = false)
    (hsig : sch.sigil fi ∈ [SIGIL_INT, SIGIL_FLOAT, SIGIL_TIME, SIGIL_BOOL]) :
    walkPlace sch plan pos fi = alignTo pos (planWidth sch plan fi) := by
  have hprom : sch.isPromoted fi = false := Bool.eq_false_of_not_eq_true fun hprom => by
    rw [h.columns.promoted fi hprom] at hsig
    exact absurd hsig (by decide)
  have hvar : isVarSigil (sch.sigil fi) = false ∧ sch.sigil fi ≠ SIGIL_KEYWORD := by
    simp only [List.mem_cons, List.not_mem_nil, or_false] at hsig
    rcases hsig with hk | hk | hk | hk <;> rw [hk] <;> decide
  rw [walkPlace, hpacked, hprom, hvar.1, beq_eq_false_iff_ne.mpr hvar.2, if_neg Bool.false_ne_true, Bool.false_or,
    if_neg Bool.false_ne_true, if_neg Bool.false_ne_true]

/-- The walk looks for a cell where the encoder puts it exactly when the two round alike. -/
theorem placed_iff (h : DenseRecord cells sch plan) {pos fi : ℕ} (hfi : fi < sch.keys.length) (hpos : pos + 8 ≤ 2 ^ 64) :
    walkPlace sch plan pos fi = cellPlace cells sch plan pos fi ↔ PlacedAlike sch plan pos fi := by
  cases h.cell hfi with
  | packed hpacked =>
    rw [walkPlace, if_pos hpacked, cellPlace_packed hpacked, PlacedAlike, if_pos hpacked]
  | number cell hpacked hcell halign _ hsig =>
    have hno : ¬ (sch.sigil fi = SIGIL_TIME ∨ sch.sigil fi = SIGIL_BOOL) := by
      rcases hsig with hk | hk <;> rw [hk] <;> decide
    rw [walkPlace_fixed h hpacked (by rcases hsig with hk | hk <;> rw [hk] <;> decide), cellPlace_of_cell hpacked hcell,
      halign, PlacedAlike, hpacked, if_neg Bool.false_ne_true, alignTo_width (h.columns.planWidth_cases plan fi) hpos]
    exact ⟨fun _ hk => absurd hk hno, fun _ => rfl⟩
  | eight cell hpacked hcell halign _ hsig =>
    rw [walkPlace_fixed h hpacked (by rcases hsig with hk | hk <;> rw [hk] <;> decide), cellPlace_of_cell hpacked hcell,
      halign, PlacedAlike, hpacked, if_neg Bool.false_ne_true]
    exact ⟨fun heq _ => heq, fun heq => heq hsig⟩
  | promoted s hpacked hcell hsig hprom =>
    have halign : appendAlign sch plan fi (.str s) = 2 := by rw [appendAlign, if_pos hprom]
    rw [walkPlace, hpacked, if_neg Bool.false_ne_true, hprom, Bool.true_or, if_pos rfl, cellPlace_of_cell hpacked hcell,
      halign, alignTo_width (Or.inr (Or.inl rfl)) hpos, PlacedAlike, hpacked, if_neg Bool.false_ne_true, hsig]
    exact ⟨fun _ hk => absurd hk (by decide), fun _ => rfl⟩
  | inline s hpacked hcell hsig hprom =>
    have halign : appendAlign sch plan fi (.str s) = 1 := by
      rw [appendAlign, hprom, if_neg Bool.false_ne_true]
    rw [walkPlace, hpacked, if_neg Bool.false_ne_true, hprom, hsig, if_neg (by decide), if_pos (by decide),
      cellPlace_of_cell hpacked hcell, halign, padLen_one, Nat.add_zero, PlacedAlike, hpacked, if_neg Bool.false_ne_true, hsig]
    exact ⟨fun _ hk => absurd hk (by decide), fun _ => rfl⟩

theorem advance_fixed {d : Bytes} {bodyBase pos fi : ℕ} (hpacked : plan.isPacked fi = false)
    (hsig : sch.sigil fi = SIGIL_INT ∨ sch.sigil fi = SIGIL_FLOAT ∨ sch.sigil fi = SIGIL_BOOL)
    (hbool : sch.sigil fi = SIGIL_BOOL → plan.packedBools = false) : advanceDensePastCell d bodyBase pos fi sch plan =
      .ok (alignTo pos (planWidth sch plan fi) + planWidth sch plan fi) := by
  rw [advanceDensePastCell, hpacked]
  dsimp only
  rw [if_neg Bool.false_ne_true, if_pos ⟨hsig, or_iff_not_imp_right.mpr fun hk => hbool (not_not.mp hk)⟩]

theorem advance_time {d : Bytes} {bodyBase pos fi : ℕ} (hpacked : plan.isPacked fi = false) (hsig : sch.sigil fi = SIGIL_TIME) :
    advanceDensePastCell d bodyBase pos fi sch plan = .ok (alignTo pos 8 + 8) := by
  rw [advanceDensePastCell, hpacked, hsig]
  dsimp only
  rw [if_neg Bool.false_ne_true, if_neg (fun hk => absurd hk.1 (by decide)), if_neg (by decide), if_neg (by decide)]

theorem advance_promoted {d : Bytes} {bodyBase pos fi : ℕ} (hpacked : plan.isPacked fi = false)
    (hsig : sch.sigil fi = SIGIL_STR) (hprom : sch.isPromoted fi = true) :
    advanceDensePastCell d bodyBase pos fi sch plan = .ok (alignTo pos 2 + 2) := by
  rw [advanceDensePastCell, hpacked, hsig]
  dsimp only
  rw [if_neg Bool.false_ne_true, if_neg (fun hk => absurd hk.1 (by decide)), if_pos (by decide), if_pos hprom]

/-- Past an inline string: its length is read as far as the prefix holds it. -/
theorem advance_inline {d : Bytes} {bodyBase pos fi : ℕ} {s : String} {bytes : Bytes} (hd : d.length < 2 ^ 63)
    (hpacked : plan.isPacked fi = false) (hsig : sch.sigil fi = SIGIL_STR) (hprom : sch.isPromoted fi = false)
    (hbytes : strBytes (sch.strLenPrefix fi) s = .ok bytes) (hat : At d (bodyBase + pos) bytes) :
    advanceDensePastCell d bodyBase pos fi sch plan =
      .ok (advancePastStrCell pos ((utf8 s).length % 256 ^ sch.strLenPrefix fi) (sch.strLenPrefix fi)) := by
  have hpre := strLenPrefix_cases hprom
  have hle := hat.le
  rw [strBytes_length hpre hbytes] at hle
  rw [strBytes] at hbytes
  obtain ⟨_, -, hbytes⟩ := bind_eq_ok.mp hbytes
  cases hbytes
  have hwidth : (if sch.strLenPrefix fi = 2 then 2 else 4) = sch.strLenPrefix fi := by
    rcases hpre with hp | hp <;> rw [hp] <;> rfl
  rw [hwidth, List.append_assoc] at hat
  have hread := readLE_at (at_append.mp hat).1 (leBytes_length _ _) hd (ε := NxsError)
  rw [leNat_leBytes_mod] at hread
  rw [advanceDensePastCell, hpacked, hsig, hprom]
  dsimp only
  rw [if_neg Bool.false_ne_true, if_neg (fun hk => absurd hk.1 (by decide)), if_pos (by decide), if_neg Bool.false_ne_true,
    usizeAdd_of (by omega), ok_bind, usizeAdd_of (by omega), ok_bind, ensure_of (by omega), ok_bind, readStrCellLen, if_pos hpre,
    usizeAdd_of (by omega), ok_bind, ensure_of (by omega), ok_bind, hread, ok_bind]

/-- A walk stands where the encoder stood, and looks for the cell of a slot where the encoder put it. -/
def Found (cells : List (ℕ × CompactCell)) (sch : ExtendedSchema) (plan : RowCellPlan) (walk pos fi : ℕ) : Prop :=
  walk ≤ pos ∧ walkPlace sch plan walk fi = cellPlace cells sch plan pos fi

/-- The walk past a cell that it has found ends at the end of the cell, except past a narrow bool or a long
string, where it ends before. -/
theorem walkStep_found (h : DenseRecord cells sch plan) {d bytes : Bytes} {bodyBase walk pos fi : ℕ} (hd : d.length < 2 ^ 63)
    (hfi : fi < sch.keys.length) (hheld : denseHeld plan fi = true) (hfound : Found cells sch plan walk pos fi)
    (hbytes : denseBytes cells sch plan fi = .ok bytes) (hat : At d (bodyBase + cellPlace cells sch plan pos fi) bytes) :
    let place := cellPlace cells sch plan pos fi
    let stop := place + denseSize cells sch plan fi
    ∃ walk', walkStep sch plan d bodyBase walk fi = .ok walk' ∧
      ((walk' = stop ∧ ¬ NarrowBool sch plan fi ∧ ¬ LongString cells sch fi) ∨
        (NarrowBool sch plan fi ∧ walk' = place + planWidth sch plan fi ∧ stop = place + 8 ∧ 8 ∣ place) ∨
        (LongString cells sch fi ∧ walk' + 2 ^ 31 < stop)) := by
  obtain ⟨hle, hplace⟩ := hfound
  have hend := hat.le
  rw [denseBytes_length hbytes] at hend
  have hpos : pos ≤ cellPlace cells sch plan pos fi := Nat.le_add_right _ _
  dsimp only
  cases h.cell hfi with
  | packed hpacked =>
    have hfirst : some fi = plan.firstBool := by
      rw [denseHeld, hpacked, Bool.not_true, Bool.false_or, beq_iff_eq] at hheld
      exact hheld.symm
    have hbool := (h.columns.isPacked_iff h.plan_of hfi).mp hpacked
    rw [walkPlace, if_pos hpacked] at hplace
    refine ⟨_, by rw [walkStep, if_pos hpacked, if_pos hfirst], Or.inl ⟨?_, ?_, ?_⟩⟩
    · rw [advancePastBoolWord, hplace, denseSize, if_pos hpacked]
    · rintro ⟨hoff, -⟩
      rw [hbool.1] at hoff
      cases hoff
    · rintro ⟨s, hs, -⟩
      obtain ⟨cell, hcell, hsig⟩ := h.row.cell hfi
      rw [hs] at hcell
      cases hcell
      rw [hbool.2] at hsig
      exact absurd hsig (show SIGIL_STR ≠ SIGIL_BOOL by decide)
  | number cell hpacked hcell halign hsize hsig =>
    rw [walkPlace_fixed h hpacked (by rcases hsig with hk | hk <;> rw [hk] <;> decide)] at hplace
    refine ⟨_, by rw [walkStep, hpacked, if_neg Bool.false_ne_true, advance_fixed hpacked (by tauto) (fun hk => by
      rcases hsig with hk' | hk' <;> rw [hk'] at hk <;> exact absurd hk (by decide))], Or.inl ⟨?_, ?_, ?_⟩⟩
    · rw [hplace, denseSize_of_cell hpacked hcell, hsize]
    · rintro ⟨-, hk, -⟩
      rcases hsig with hk' | hk' <;> rw [hk'] at hk <;> exact absurd hk (by decide)
    · rintro ⟨s, hs, -⟩
      obtain ⟨cell', hcell', hsig'⟩ := h.row.cell hfi
      rw [hs] at hcell'
      cases hcell'
      rw [← hsig'] at hsig
      exact absurd hsig (show ¬ (SIGIL_STR = SIGIL_INT ∨ SIGIL_STR = SIGIL_FLOAT) by decide)
  | eight cell hpacked hcell halign hsize hsig hbool =>
    have hnolong : ¬ LongString cells sch fi := by
      rintro ⟨s, hs, -⟩
      obtain ⟨cell', hcell', hsig'⟩ := h.row.cell hfi
      rw [hs] at hcell'
      cases hcell'
      rw [← hsig'] at hsig
      exact absurd hsig (show ¬ (SIGIL_STR = SIGIL_TIME ∨ SIGIL_STR = SIGIL_BOOL) by decide)
    have hdvd : 8 ∣ cellPlace cells sch plan pos fi := by
      rw [cellPlace_of_cell hpacked hcell, halign]
      exact padLen_dvd (by decide) pos
    have hw := h.columns.planWidth_cases plan fi
    have hsize' : denseSize cells sch plan fi = 8 := by
      rw [denseSize_of_cell hpacked hcell, hsize]
    rw [walkPlace_fixed h hpacked (by rcases hsig with hk | hk <;> rw [hk] <;> decide)] at hplace
    rcases hsig with hsig | hsig
    · refine ⟨_, by rw [walkStep, hpacked, if_neg Bool.false_ne_true, advance_time hpacked hsig], Or.inl ⟨?_, ?_, hnolong⟩⟩
      · -- the place is the next multiple of eight, whichever width it was looked for with
        have hlt : padLen (planWidth sch plan fi) walk < 8 :=
          Nat.lt_of_lt_of_le (padLen_lt (by omega) walk) (by omega)
        have hdvd' := padLen_dvd (show 0 < 8 by decide) walk
        have hlt' := padLen_lt (show 0 < 8 by decide) walk
        rw [alignTo_width hw (by omega)] at hplace
        rw [alignTo_width (Or.inr (Or.inr (Or.inr rfl))) (by omega), hsize']
        rw [← hplace] at hdvd ⊢
        omega
      · rintro ⟨-, hk, -⟩
        rw [hsig] at hk
        exact absurd hk (by decide)
    · refine ⟨_, by rw [walkStep, hpacked, if_neg Bool.false_ne_true, advance_fixed hpacked (Or.inr (Or.inr hsig)) hbool], ?_⟩
      rw [hplace, hsize']
      by_cases h8 : planWidth sch plan fi = 8
      · exact Or.inl ⟨by rw [h8], fun hk => hk.2.2 h8, hnolong⟩
      · exact Or.inr (Or.inl ⟨⟨hbool hsig, hsig, h8⟩, rfl, rfl, hdvd⟩)
  | promoted s hpacked hcell hsig hprom =>
    rw [walkPlace, hpacked, if_neg Bool.false_ne_true, hprom, Bool.true_or, if_pos rfl] at hplace
    refine ⟨_, by rw [walkStep, hpacked, if_neg Bool.false_ne_true, advance_promoted hpacked hsig hprom], Or.inl ⟨?_, ?_, ?_⟩⟩
    · rw [hplace, denseSize_of_cell hpacked hcell, cellSize, if_pos hprom]
    · rintro ⟨-, hk, -⟩
      rw [hsig] at hk
      exact absurd hk (by decide)
    · rintro ⟨_, -, hpre, -⟩
      rw [ExtendedSchema.strLenPrefix, if_pos hprom] at hpre
      cases hpre
  | inline s hpacked hcell hsig hprom =>
    have hpre := strLenPrefix_cases hprom
    have hsize : denseSize cells sch plan fi = sch.strLenPrefix fi + (utf8 s).length +
        padLen 8 (sch.strLenPrefix fi + (utf8 s).length) := by
      rw [denseSize_of_cell hpacked hcell, cellSize, hprom, if_neg Bool.false_ne_true]
    have hplace' : walk = cellPlace cells sch plan pos fi := by
      rw [walkPlace, hpacked, if_neg Bool.false_ne_true, hprom, hsig, if_neg (by decide), if_pos (by decide)] at hplace
      exact hplace
    have hstr : strBytes (sch.strLenPrefix fi) s = .ok bytes := by
      rw [denseBytes, hpacked, if_neg Bool.false_ne_true, hcell, ofOption_some, okOr_ok, ok_bind, appendBytes, hprom,
        if_neg Bool.false_ne_true] at hbytes
      exact hbytes
    have hnarrow : ¬ NarrowBool sch plan fi := by
      rintro ⟨-, hk, -⟩
      rw [hsig] at hk
      exact absurd hk (by decide)
    refine ⟨_, by rw [walkStep, hpacked, if_neg Bool.false_ne_true, advance_inline hd hpacked hsig hprom hstr (by
      rw [hplace']
      exact hat)], ?_⟩
    rw [← hplace', hsize, advancePastStrCell]
    by_cases hlong : LongString cells sch fi
    · obtain ⟨s', hs', hp, hlen⟩ := hlong
      rw [hcell] at hs'
      cases hs'
      have hmod := Nat.mod_add_div (utf8 s).length (256 ^ 4)
      have hlt := Nat.mod_lt (utf8 s).length (show 0 < 256 ^ 4 by decide)
      have hpad := padLen_lt (show 0 < 8 by decide) (4 + (utf8 s).length % 256 ^ 4)
      rw [hp]
      refine Or.inr (Or.inr ⟨⟨s, hcell, hp, hlen⟩, ?_⟩)
      have hdiv : 1 ≤ (utf8 s).length / 256 ^ 4 := (Nat.one_le_div_iff (by decide)).mpr hlen
      omega
    · have hlen : (utf8 s).length < 256 ^ sch.strLenPrefix fi := by
        rcases hpre with hp | hp
        · rw [strBytes] at hstr
          obtain ⟨_, hfit, -⟩ := bind_eq_ok.mp hstr
          have := ensure_eq_ok.mp hfit hp
          rw [hp]
          omega
        · rw [hp]
          exact Nat.lt_of_not_le fun hlen => hlong ⟨s, hcell, hp, hlen⟩
      rw [Nat.mod_eq_of_lt hlen]
      exact Or.inl ⟨by omega, hnarrow, hlong⟩

/-- No slot is looked for far behind the walk. -/
theorem walkPlace_le (h : DenseRecord cells sch plan) {pos fi : ℕ} (hword : plan.isPacked fi = true → plan.boolWordBytes ≤ 8) :
    walkPlace sch plan pos fi ≤ pos + 8 := by
  have hw := h.columns.planWidth_cases plan fi
  rw [walkPlace]
  split
  · rename_i hpacked
    exact Nat.le_trans (alignTo_le pos _) (Nat.add_le_add_left (hword hpacked) pos)
  split
  · exact Nat.le_trans (alignTo_le pos 2) (by omega)
  split
  · omega
  · exact Nat.le_trans (alignTo_le pos _) (by omega)

/-- Behind a narrow bool, which the walk has left early, only a fixed cell of eight bytes is found. -/
theorem found_after_narrow (h : DenseRecord cells sch plan) {walk place next : ℕ} (hnext : next < sch.keys.length)
    (hoff : plan.packedBools = false) (hdvd : 8 ∣ place) (hlow : place < walk) (hhigh : walk ≤ place + 4)
    (hpos : place + 16 ≤ 2 ^ 64) :
    Found cells sch plan walk (place + 8) next ↔ (sch.sigil next ≠ SIGIL_STR ∧ planWidth sch plan next = 8) := by
  have hunpacked : plan.isPacked next = false := by
    rw [RowCellPlan.isPacked, hoff, Bool.false_and]
  have hw := h.columns.planWidth_cases plan next
  have hstop : 8 ∣ place + 8 := Nat.dvd_add hdvd (Nat.dvd_refl 8)
  -- rounded up to eight the walk reaches the end of the bool's cell, rounded up to less it does not
  have hround : ∀ w, w = 1 ∨ w = 2 ∨ w = 4 ∨ w = 8 → (alignTo walk w = place + 8 ↔ w = 8) := by
    intro w hw
    rw [alignTo_width hw (by omega)]
    have hlt := padLen_lt (show 0 < w by omega) walk
    constructor
    · intro heq
      omega
    · rintro rfl
      have hdvd' := padLen_dvd (show 0 < 8 by decide) walk
      omega
  have hfixed : sch.sigil next ∈ [SIGIL_INT, SIGIL_FLOAT, SIGIL_TIME, SIGIL_BOOL] →
      cellPlace cells sch plan (place + 8) next = place + 8 →
      (Found cells sch plan walk (place + 8) next ↔ (sch.sigil next ≠ SIGIL_STR ∧ planWidth sch plan next = 8)) := by
    intro hsig hplace
    rw [Found, walkPlace_fixed h hunpacked hsig, hplace, hround _ hw]
    exact ⟨fun hk => ⟨fun hno => by rw [hno] at hsig; exact absurd hsig (by decide), hk.2⟩, fun hk => ⟨by omega, hk.2⟩⟩
  cases h.cell hnext with
  | packed hpacked =>
    rw [hunpacked] at hpacked
    cases hpacked
  | number cell _ hcell halign _ hsig =>
    refine hfixed (by rcases hsig with hk | hk <;> rw [hk] <;> decide) ?_
    have hdvdw : planWidth sch plan next ∣ place + 8 := Nat.dvd_trans (by rcases hw with hk | hk | hk | hk <;> rw [hk] <;> decide) hstop
    rw [cellPlace_of_cell hunpacked hcell, halign, padLen_of_dvd hdvdw, Nat.add_zero]
  | eight cell _ hcell halign _ hsig =>
    refine hfixed (by rcases hsig with hk | hk <;> rw [hk] <;> decide) ?_
    rw [cellPlace_of_cell hunpacked hcell, halign, padLen_of_dvd hstop, Nat.add_zero]
  | promoted s _ hcell hsig hprom =>
    refine ⟨fun hk => ?_, fun hk => absurd hsig hk.1⟩
    have hplace := hk.2
    rw [walkPlace, hunpacked, if_neg Bool.false_ne_true, hprom, Bool.true_or, if_pos rfl, alignTo_width (Or.inr (Or.inl rfl)) (by omega),
      cellPlace_of_cell hunpacked hcell] at hplace
    have hlt := padLen_lt (show 0 < 2 by decide) walk
    omega
  | inline s _ hcell hsig hprom =>
    refine ⟨fun hk => ?_, fun hk => absurd hsig hk.1⟩
    have hplace := hk.2
    rw [walkPlace, hunpacked, if_neg Bool.false_ne_true, hprom, hsig, if_neg (by decide), if_pos (by decide),
      cellPlace_of_cell hunpacked hcell] at hplace
    omega

/-- The cells that a walk has in front of it: a slot's cell is found behind these. -/
def FoundBehind (cells : List (ℕ × CompactCell)) (sch : ExtendedSchema) (plan : RowCellPlan) (d : Bytes) (bodyBase : ℕ)
    (pre : List ℕ) (fi : ℕ) : Prop :=
  ∃ walk, pre.foldlM (walkStep sch plan d bodyBase) 0 = .ok walk ∧ Found cells sch plan walk (densePos cells sch plan pre) fi

/-- What decides whether the walk over these slots finds each cell: each is placed alike, and passed alike. -/
structure WalkedAlike (cells : List (ℕ × CompactCell)) (sch : ExtendedSchema) (plan : RowCellPlan) (order : List ℕ) : Prop where
  placed : ∀ pre fi rest, order = pre ++ fi :: rest → PlacedAlike sch plan (densePos cells sch plan pre) fi
  passed : ∀ pre fi next rest, order = pre ++ fi :: next :: rest → PassedAlike cells sch plan fi next

/-- A dense body in a buffer, with the slots that have a cell in it. -/
structure DenseBodyAt (cells : List (ℕ × CompactCell)) (sch : ExtendedSchema) (plan : RowCellPlan) (d : Bytes) (bodyBase : ℕ)
    (order : List ℕ) (body : Bytes) : Prop where
  small : d.length < 2 ^ 63
  held : ∀ fi ∈ order, denseHeld plan fi = true
  slots : ∀ fi ∈ order, fi < sch.keys.length
  encoded : order.foldlM (denseStep cells sch plan) [] = .ok body
  placed : At d bodyBase body

/-- The step lemma of the walk: behind a cell that is found, the next one is found exactly when the cell is
passed alike and the next one placed alike. -/
theorem foundBehind_step (h : DenseRecord cells sch plan) {d body : Bytes} {bodyBase : ℕ} {pre rest : List ℕ} {fi next : ℕ}
    (hbody : DenseBodyAt cells sch plan d bodyBase (pre ++ fi :: next :: rest) body)
    (hfound : FoundBehind cells sch plan d bodyBase pre fi) : FoundBehind cells sch plan d bodyBase (pre ++ [fi]) next ↔
      PassedAlike cells sch plan fi next ∧ PlacedAlike sch plan (densePos cells sch plan (pre ++ [fi])) next := by
  obtain ⟨walk, hwalk, hfi⟩ := hfound
  have hfimem : fi ∈ pre ++ fi :: next :: rest := List.mem_append_right _ List.mem_cons_self
  have hnextmem : next ∈ pre ++ fi :: next :: rest :=
    List.mem_append_right _ (List.mem_cons_of_mem _ List.mem_cons_self)
  have hsmall := hbody.small
  obtain ⟨hstop, -, bytes, hbytes, hat⟩ := denseFold_at hbody.held hbody.encoded
  have hsplit : pre ++ fi :: next :: rest = (pre ++ [fi]) ++ next :: rest := by
    rw [List.append_assoc]
    rfl
  obtain ⟨-, -, nextBytes, hnextBytes, -⟩ := denseFold_at (hsplit ▸ hbody.held) (hsplit ▸ hbody.encoded)
  have hbodyle := hbody.placed.le
  obtain ⟨walk', hstep, hcases⟩ := walkStep_found h hsmall (hbody.slots fi hfimem) (hbody.held fi hfimem) hfi hbytes
    (hbody.placed.trans hat)
  have hrun : (pre ++ [fi]).foldlM (walkStep sch plan d bodyBase) 0 = .ok walk' := by
    rw [List.foldlM_append, hwalk, ok_bind, List.foldlM_cons, hstep, ok_bind]
    rfl
  have hbehind : FoundBehind cells sch plan d bodyBase (pre ++ [fi]) next ↔
      Found cells sch plan walk' (densePos cells sch plan (pre ++ [fi])) next := by
    constructor
    · rintro ⟨walk'', hrun', hnext⟩
      rw [hrun] at hrun'
      cases hrun'
      exact hnext
    · exact fun hnext => ⟨walk', hrun, hnext⟩
  have hnextlt := hbody.slots next hnextmem
  rw [hbehind, densePos_append]
  rw [densePos_append] at hstop
  rcases hcases with ⟨rfl, hnarrow, hlong⟩ | ⟨hnarrow, rfl, height, hdvd⟩ | ⟨hlong, hearly⟩
  · rw [Found, placed_iff h hnextlt (by omega)]
    exact ⟨fun hk => ⟨⟨fun hno => absurd hno hnarrow, hlong⟩, hk.2⟩, fun hk => ⟨Nat.le_refl _, hk.2⟩⟩
  · have hw := h.columns.planWidth_cases plan fi
    have hw8 := hnarrow.2.2
    have hnolong : ¬ LongString cells sch fi := by
      rintro ⟨s, hs, -⟩
      obtain ⟨cell, hcell, hsig⟩ := h.row.cell (hbody.slots fi hfimem)
      rw [hs] at hcell
      cases hcell
      rw [hnarrow.2.1] at hsig
      exact absurd hsig (show SIGIL_STR ≠ SIGIL_BOOL by decide)
    rw [height]
    have hiff : Found cells sch plan (cellPlace cells sch plan (densePos cells sch plan pre) fi + planWidth sch plan fi) _ next ↔ _ :=
      found_after_narrow h hnextlt hnarrow.1 hdvd (by omega) (by omega) (by omega)
    constructor
    · intro hk
      have hnext := hiff.mp hk
      refine ⟨⟨fun _ => hnext, hnolong⟩, ?_⟩
      rw [PlacedAlike, RowCellPlan.isPacked, hnarrow.1, Bool.false_and, if_neg Bool.false_ne_true, hnext.2]
      exact fun _ => alignTo_width (Or.inr (Or.inr (Or.inr rfl))) (by omega)
    · exact fun hk => hiff.mpr (hk.1.1 hnarrow)
  · constructor
    · intro hk
      have hword : plan.isPacked next = true → plan.boolWordBytes ≤ 8 := fun hpacked => by
        rw [denseBytes, if_pos hpacked] at hnextBytes
        exact boolWordBytes_le_of_range hnextBytes
      have hle : walkPlace sch plan walk' next ≤ walk' + 8 := walkPlace_le h hword
      have hplace := hk.2
      have hbehind' : ∀ pos, pos ≤ cellPlace cells sch plan pos next := fun pos => Nat.le_add_right _ _
      have := hbehind' (cellPlace cells sch plan (densePos cells sch plan pre) fi + denseSize cells sch plan fi)
      omega
    · exact fun hk => absurd hlong hk.1.2

theorem foundBehind_nil (h : DenseRecord cells sch plan) {d : Bytes} {bodyBase fi : ℕ} (hfi : fi < sch.keys.length) :
    FoundBehind cells sch plan d bodyBase [] fi ↔ PlacedAlike sch plan (densePos cells sch plan []) fi := by
  have hplaced : walkPlace sch plan 0 fi = cellPlace cells sch plan 0 fi ↔ _ := placed_iff h hfi (by decide)
  constructor
  · rintro ⟨walk, hwalk, hfound⟩
    cases hwalk
    exact hplaced.mp hfound.2
  · exact fun hk => ⟨0, rfl, Nat.le_refl _, hplaced.mpr hk⟩

/-- The run lemma: the walk finds every cell exactly when each is placed alike and passed alike. -/
theorem foundBehind_iff (h : DenseRecord cells sch plan) {d body : Bytes} {bodyBase : ℕ} {order : List ℕ}
    (hbody : DenseBodyAt cells sch plan d bodyBase order body) :
    (∀ pre fi rest, order = pre ++ fi :: rest → FoundBehind cells sch plan d bodyBase pre fi) ↔
      WalkedAlike cells sch plan order := by
  have hsplit : ∀ (pre rest : List ℕ) (fi next : ℕ), pre ++ [fi] ++ next :: rest = pre ++ fi :: next :: rest := by
    intro pre rest fi next
    rw [List.append_assoc]
    rfl
  have hlt : ∀ pre fi rest, order = pre ++ fi :: rest → fi < sch.keys.length := fun pre fi rest heq =>
    hbody.slots fi (heq ▸ List.mem_append_right _ List.mem_cons_self)
  constructor
  · intro hfound
    constructor
    · intro pre fi rest heq
      cases pre using List.reverseRecOn with
      | nil => exact (foundBehind_nil h (hlt _ _ _ heq)).mp (hfound _ _ _ heq)
      | append_singleton pre f =>
        have heq' := heq.trans (hsplit pre rest f fi)
        exact ((foundBehind_step h (heq' ▸ hbody) (hfound _ _ _ heq')).mp (hfound _ _ _ heq)).2
    · intro pre fi next rest heq
      have hnext := hfound _ _ _ (heq.trans (hsplit pre rest fi next).symm)
      exact ((foundBehind_step h (heq ▸ hbody) (hfound _ _ _ heq)).mp hnext).1
  · intro halike pre
    induction pre using List.reverseRecOn with
    | nil => exact fun fi rest heq => (foundBehind_nil h (hlt _ _ _ heq)).mpr (halike.placed _ _ _ heq)
    | append_singleton pre f ih =>
      intro fi rest heq
      have heq' := heq.trans (hsplit pre rest f fi)
      exact (foundBehind_step h (heq' ▸ hbody) (ih f _ heq')).mpr ⟨halike.passed _ _ _ _ heq', halike.placed _ _ _ heq⟩

/-- Where the walk looks for every cell in the right place, it is nowhere ahead of the encoder. -/
theorem foundBehind_of_places (h : DenseRecord cells sch plan) {d body : Bytes} {bodyBase : ℕ} {order : List ℕ}
    (hbody : DenseBodyAt cells sch plan d bodyBase order body)
    (hplace : ∀ pre fi rest, order = pre ++ fi :: rest → ∃ walk, pre.foldlM (walkStep sch plan d bodyBase) 0 = .ok walk ∧
      walkPlace sch plan walk fi = cellPlace cells sch plan (densePos cells sch plan pre) fi) (pre : List ℕ) :
    ∀ fi rest, order = pre ++ fi :: rest → FoundBehind cells sch plan d bodyBase pre fi := by
  induction pre using List.reverseRecOn with
  | nil =>
    intro fi rest heq
    obtain ⟨walk, hwalk, hfi⟩ := hplace _ _ _ heq
    cases hwalk
    exact ⟨0, rfl, Nat.le_refl _, hfi⟩
  | append_singleton pre f ih =>
    intro fi rest heq
    have heq' : order = pre ++ f :: fi :: rest := by
      rw [heq, List.append_assoc]
      rfl
    have hmem : f ∈ order := heq' ▸ List.mem_append_right _ List.mem_cons_self
    obtain ⟨walk, hwalk, hf⟩ := ih f (fi :: rest) heq'
    obtain ⟨walk', hwalk', hfi⟩ := hplace _ _ _ heq
    obtain ⟨-, -, bytes, hbytes, hat⟩ := denseFold_at (heq' ▸ hbody.held) (heq' ▸ hbody.encoded)
    obtain ⟨next, hstep, hcases⟩ := walkStep_found h hbody.small (hbody.slots f hmem) (hbody.held f hmem) hf hbytes
      (hbody.placed.trans hat)
    have hnext : walk' = next := by
      rw [List.foldlM_append, hwalk, ok_bind, List.foldlM_cons, hstep, ok_bind] at hwalk'
      cases hwalk'
      rfl
    refine ⟨walk', hwalk', ?_, hfi⟩
    rw [hnext, densePos_append]
    rcases hcases with ⟨hstop, -, -⟩ | ⟨-, hstop, hsize, -⟩ | ⟨-, hstop⟩
    · exact Nat.le_of_eq hstop
    · have := h.columns.planWidth_cases plan f
      omega
    · omega

/-! ## Every slot of a dense record -/

end

/-- The slots that have a cell, in wire order. -/
def heldOrder (sch : ExtendedSchema) (plan : RowCellPlan) : List ℕ := (denseWireOrder sch plan).filter (denseHeld plan)

section

variable {cells : List (ℕ × CompactCell)} {sch : ExtendedSchema} {plan : RowCellPlan}

theorem denseReordered_perm (sch : ExtendedSchema) (plan : RowCellPlan) : (denseReordered sch plan).Perm
    ((List.range sch.keys.length).filter (fun fi => !isVarSigil (sch.sigil fi) &&
        (!plan.isPacked fi || plan.firstBool == some fi)) ++
      (List.range sch.keys.length).filter fun fi => isVarSigil (sch.sigil fi)) := by
  rw [denseReordered]
  refine List.Perm.append_right _ (((List.perm_insertionSort _ _).map _).trans ?_)
  rw [List.map_map, Function.comp_def, List.map_id']

theorem mem_denseWireOrder {fi : ℕ} (hheld : denseHeld plan fi = true) :
    fi ∈ denseWireOrder sch plan ↔ fi < sch.keys.length := by
  rw [denseWireOrder]
  split
  · exact List.mem_range
  · rw [(denseReordered_perm sch plan).mem_iff, List.mem_append, List.mem_filter, List.mem_filter, List.mem_range]
    rw [denseHeld] at hheld
    constructor
    · rintro (hin | hin)
      · exact hin.1
      · exact hin.1
    · intro hlt
      cases hvar : isVarSigil (sch.sigil fi) with
      | true => exact Or.inr ⟨hlt, rfl⟩
      | false => exact Or.inl ⟨hlt, by rw [Bool.not_false, Bool.true_and]; exact hheld⟩

theorem denseWireOrder_lt {fi : ℕ} (h : fi ∈ denseWireOrder sch plan) : fi < sch.keys.length := by
  rw [denseWireOrder] at h
  split at h
  · exact List.mem_range.mp h
  · rw [(denseReordered_perm sch plan).mem_iff, List.mem_append, List.mem_filter, List.mem_filter, List.mem_range] at h
    exact h.elim And.left And.left

theorem denseWireOrder_nodup : (denseWireOrder sch plan).Nodup := by
  rw [denseWireOrder]
  split
  · exact List.nodup_range
  · rw [(denseReordered_perm sch plan).nodup_iff]
    refine List.Nodup.append (List.nodup_range.filter _) (List.nodup_range.filter _) ?_
    intro fi hfixed hvar
    have hvar := (List.mem_filter.mp hvar).2
    have hfixed := (List.mem_filter.mp hfixed).2
    rw [hvar, Bool.not_true, Bool.false_and] at hfixed
    cases hfixed

/-- The cells in front of the one that holds a slot's value. -/
theorem heldOrder_split (h : Planned sch plan) {slot : ℕ} (hslot : slot < sch.keys.length) :
    ∃ pre rest, heldOrder sch plan = pre ++ denseHolder plan slot :: rest ∧ denseHolder plan slot ∉ pre := by
  have hheld := holder_held h.plan_of.firstBool slot
  have hlt : denseHolder plan slot < sch.keys.length := by
    cases hpacked : plan.isPacked slot with
    | true =>
      have hin := (isPacked_eq_true.mp (holder_of_packed h.plan_of.firstBool hpacked).2).2
      rw [h.plan_of.boolSlots, ExtendedSchema.boolSlots, List.mem_filter, List.mem_range, h.lengths] at hin
      exact hin.1
    | false =>
      rw [(holder_of_unpacked hpacked).1]
      exact hslot
  have hmem : denseHolder plan slot ∈ heldOrder sch plan :=
    List.mem_filter.mpr ⟨(mem_denseWireOrder hheld).mpr hlt, hheld⟩
  obtain ⟨pre, rest, hsplit⟩ := List.append_of_mem hmem
  refine ⟨pre, rest, hsplit, fun hin => ?_⟩
  have hnd : (heldOrder sch plan).Nodup := denseWireOrder_nodup.filter _
  rw [hsplit] at hnd
  exact (List.nodup_append.mp hnd).2.2 _ hin _ List.mem_cons_self rfl

theorem takeWhile_filter {p : ℕ → Bool} {x : ℕ} (hx : p x = true) : ∀ {l pre rest : List ℕ}, l.filter p = pre ++ x :: rest →
    x ∉ pre → (l.takeWhile (· != x)).filter p = pre
  | [], pre, rest, h, _ => absurd h.symm (by simp)
  | a :: l, pre, rest, h, hpre => by
    by_cases hax : a = x
    · subst hax
      rw [List.filter_cons_of_pos hx] at h
      rw [List.takeWhile_cons_of_neg (by rw [bne_self_eq_false]; exact Bool.false_ne_true), List.filter_nil]
      cases pre with
      | nil => rfl
      | cons b pre =>
        rw [List.cons_append, List.cons.injEq] at h
        exact absurd (h.1 ▸ List.mem_cons_self) hpre
    · have hwhile : (a :: l).takeWhile (· != x) = a :: l.takeWhile (· != x) := List.takeWhile_cons_of_pos (bne_iff_ne.mpr hax)
      rw [hwhile]
      by_cases hpa : p a = true
      · rw [List.filter_cons_of_pos hpa] at h ⊢
        cases pre with
        | nil =>
          rw [List.nil_append, List.cons.injEq] at h
          exact absurd h.1 hax
        | cons b pre =>
          rw [List.cons_append, List.cons.injEq] at h
          rw [takeWhile_filter hx h.2 (fun hin => hpre (List.mem_cons_of_mem _ hin)), h.1]
      · rw [List.filter_cons_of_neg hpa] at h ⊢
        exact takeWhile_filter hx h hpre

theorem encodeDenseBody_held : encodeDenseBody cells sch plan = (heldOrder sch plan).foldlM (denseStep cells sch plan) [] :=
  denseFold_held _ _

/-- A dense body with all its slots. -/
theorem denseBodyAt_of (h : encodeDenseBody cells sch plan = .ok body) {d : Bytes} {bodyBase : ℕ} (hd : d.length < 2 ^ 63)
    (hat : At d bodyBase body) : DenseBodyAt cells sch plan d bodyBase (heldOrder sch plan) body where
  small := hd
  held := fun _ hfi => (List.mem_filter.mp hfi).2
  slots := fun _ hfi => denseWireOrder_lt (List.mem_filter.mp hfi).1
  encoded := encodeDenseBody_held.symm.trans h
  placed := hat

/-- The encoder's place of a slot, by positions. -/
theorem densePlace_eq {body : Bytes} {slot : ℕ} {pre rest : List ℕ} (hheld : ∀ fi ∈ heldOrder sch plan, denseHeld plan fi = true)
    (h : (heldOrder sch plan).foldlM (denseStep cells sch plan) [] = .ok body)
    (hsplit : heldOrder sch plan = pre ++ denseHolder plan slot :: rest) (hpre : denseHolder plan slot ∉ pre) :
    densePlace cells sch plan slot =
      .ok (cellPlace cells sch plan (densePos cells sch plan pre) (denseHolder plan slot) + holderByte plan slot) := by
  have hholder := hheld _ (hsplit ▸ List.mem_append_right _ List.mem_cons_self)
  obtain ⟨-, ⟨front, hfront, hlen⟩, -⟩ := denseFold_at (hsplit ▸ hheld) (hsplit ▸ h)
  have hwhile := takeWhile_filter hholder hsplit hpre
  rw [densePlace, denseFold_held, hwhile, hfront, ok_bind, padTo_length, hlen]
  rfl

/-- The walk returns the encoder's place for every slot exactly when it finds every cell. -/
theorem denseWalk_places_iff (h : DenseRecord cells sch plan) {d body : Bytes} {bodyBase : ℕ}
    (hbody : DenseBodyAt cells sch plan d bodyBase (heldOrder sch plan) body) :
    (∀ slot < sch.keys.length, ∃ p, densePlace cells sch plan slot = .ok p ∧
      denseWalk d bodyBase slot sch plan (denseWireOrder sch plan) 0 = .ok (some (bodyBase + p))) ↔
      WalkedAlike cells sch plan (heldOrder sch plan) := by
  have hbodyle := hbody.placed.le
  have hsmall := hbody.small
  constructor
  · intro hslots
    refine (foundBehind_iff h hbody).mp fun pre => foundBehind_of_places h hbody (fun pre fi rest hsplit => ?_) pre
    have hmem : fi ∈ heldOrder sch plan := hsplit ▸ List.mem_append_right _ List.mem_cons_self
    have hself : denseHolder plan fi = fi := by
      have hheld := hbody.held fi hmem
      rw [denseHolder]
      split
      · rename_i hpacked
        rw [denseHeld, hpacked, Bool.not_true, Bool.false_or, beq_iff_eq] at hheld
        rw [hheld, Option.getD_some]
      · rfl
    have hnd : (heldOrder sch plan).Nodup := denseWireOrder_nodup.filter _
    have hpre : fi ∉ pre := fun hin => by
      rw [hsplit] at hnd
      exact (List.nodup_append.mp hnd).2.2 _ hin _ List.mem_cons_self rfl
    obtain ⟨p, hp, hwalk⟩ := hslots fi (hbody.slots fi hmem)
    rw [densePlace_eq hbody.held hbody.encoded (hself.symm ▸ hsplit) (hself.symm ▸ hpre)] at hp
    cases hp
    rw [denseWalk_eq h.plan_of.firstBool (hself.symm ▸ hsplit) (hself.symm ▸ hpre)] at hwalk
    obtain ⟨walk, hrun, hwalk⟩ := bind_eq_ok.mp hwalk
    obtain ⟨off, hoff, hwalk⟩ := bind_eq_ok.mp hwalk
    refine ⟨walk, hrun, ?_⟩
    rw [usizeAdd] at hoff
    split at hoff
    · cases hoff
      injection hwalk with hwalk
      injection hwalk with hwalk
      rw [hself] at hwalk
      omega
    · cases hoff
  · intro halike slot hslot
    obtain ⟨pre, rest, hsplit, hpre⟩ := heldOrder_split h.planned hslot
    obtain ⟨walk, hrun, -, hplace⟩ := (foundBehind_iff h hbody).mpr halike _ _ _ hsplit
    obtain ⟨-, -, bytes, hbytes, hat⟩ := denseFold_at (hsplit ▸ hbody.held) (hsplit ▸ hbody.encoded)
    refine ⟨_, densePlace_eq hbody.held hbody.encoded hsplit hpre, ?_⟩
    rw [denseWalk_eq h.plan_of.firstBool hsplit hpre, hrun, ok_bind, hplace]
    have hle := hat.le
    have hbyte : holderByte plan slot ≤ 8 := by
      cases hpacked : plan.isPacked slot with
      | true =>
        rw [denseBytes, if_pos (holder_of_packed h.plan_of.firstBool hpacked).2] at hbytes
        exact Nat.le_trans (Nat.le_of_lt (holderByte_lt hpacked)) (boolWordBytes_le_of_range hbytes)
      | false =>
        rw [(holder_of_unpacked hpacked).2]
        exact Nat.zero_le 8
    rw [usizeAdd_of (by omega), ok_bind]

end

end Nyxis

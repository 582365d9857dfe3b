import Nyxis.SparseRecord

/-!
# RecordReads — reading a compact record of any framing

A row of cells and explicit nulls is written densely, sparsely behind a header byte, or sparsely as in v1.2, by
the options.  A reader finds the cell of a dense record by the columns in front of it, of which a null takes no
room in the body; in a sparse record it goes by the mask and the offset table.

* `walk_front`: where the reader's walk stands in front of a cell.
* `reads_exact_iff`: at its place a value is read back exactly when its cell keeps it.
* `record_reads`: the values of a record that fits are found and read back; where no null is in a string column and
  packed bools are in dense frames, those of no other record are.
-/

namespace Nyxis

open Lib Lib.Outcome

/-- Columns as the writer describes them. -/
structure WrittenColumns (sch : ExtendedSchema) (opts : CompactOptions) : Prop where
  lengths : sch.sigils.length = sch.keys.length
  promoted : ∀ fi, sch.isPromoted fi = true → sch.sigil fi = SIGIL_STR
  widths : opts.narrowCells = false → ∀ fi, sch.widths.getD fi 0 = 0

/-- A row of nulls and of cells of their columns' kinds. -/
structure CellRow (cells : List (ℕ × CompactCell)) (sch : ExtendedSchema) : Prop where
  slots : ∀ c ∈ cells, c.1 < 65536
  kinds : ∀ c ∈ cells, c.1 < sch.keys.length → c.2 = .null ∨ c.2.sigil = sch.sigil c.1
  keywords : ∀ c ∈ cells, ∀ idx, c.2 = .keyword idx → idx < 65536

/-- A reader of a file with the columns of `sch` that was written with `opts`. -/
structure CompactReader (r : Reader) (sch : ExtendedSchema) (opts : CompactOptions) : Prop
    extends PlanReader r sch (RowCellPlan.new sch opts.preambleFlags) where
  dense : hasFlag r.flags FLAG_DENSE_FRAMES = opts.denseFrames

/-- The record of these cells stands at `offset`. -/
structure RecordAt (r : Reader) (offset : ℕ) (record : Bytes) (cells : List (ℕ × CompactCell)) (sch : ExtendedSchema)
    (opts : CompactOptions) : Prop where
  columns : WrittenColumns sch opts
  row : CellRow cells sch
  reader : CompactReader r sch opts
  encoded : encodeCompactRecord cells sch opts = .ok record
  stands : At r.data offset record

/-- The slot has this value, and no null. -/
def HasValue (cells : List (ℕ × CompactCell)) (slot : ℕ) (cell : CompactCell) : Prop :=
  (∃ c ∈ cells, c.1 = slot) ∧ cellAt cells slot = some cell ∧ cell ≠ .null

/-- The value of the slot is read back exactly: the index of a keyword at its place, any other value by the getter of
its kind. -/
def Reader.ReadsExact (r : Reader) (offset slot : ℕ) : CompactCell → Prop
  | .keyword idx => (r.resolve offset slot >>= fun p => getLE r.data p 2) = .ok idx
  | cell => r.ReadsCell offset slot 8 cell

section

variable (cells : List (ℕ × CompactCell)) (sch : ExtendedSchema) (opts : CompactOptions) (plan : RowCellPlan)

/-! ## Dense records -/

/-- The reader's walk past one slot: by the column, and by the length of an inline string. -/
def columnStep (pos fi : ℕ) : ℕ :=
  if isVarSigil (sch.sigil fi) then
    if sch.isPromoted fi then alignTo pos 2 + 2
    else match cellAt cells fi with
      | some (.str s) => advancePastStrCell pos (utf8 s).length (sch.strLenPrefix fi)
      | _ => pos
  else fixedStep sch plan pos fi

/-- Where the walk past these slots ends. -/
def columnPos (order : List ℕ) : ℕ := order.foldl (columnStep cells sch plan) 0

/-- The slots with their cells in front of that of `fi`. -/
def wireFront (fi : ℕ) : List ℕ := (heldOrder sch plan).takeWhile (· != fi)

/-- Where a reader looks for a cell from a position on; behind the table of the fixed cells it aligns no string. -/
def lookPlace (pos fi : ℕ) : ℕ :=
  if plan.denseWireReorder && isVarSigil (sch.sigil fi) then pos else walkPlace sch plan pos fi

/-- The value of a slot is looked for where it stands in a dense body: no null is among the inline strings in front of
its cell, and the columns in front of it take the room that their cells take. -/
structure DenseSlotFits (slot : ℕ) : Prop where
  strings : ∀ f ∈ wireFront sch plan (denseHolder plan slot), isVarSigil (sch.sigil f) = true → sch.isPromoted f = false →
    cellAt cells f ≠ some .null
  place : lookPlace sch plan (columnPos cells sch plan (wireFront sch plan (denseHolder plan slot))) (denseHolder plan slot) =
    cellPlace cells sch plan (densePos cells sch plan (wireFront sch plan (denseHolder plan slot))) (denseHolder plan slot)

/-! ## Sparse records -/

/-- The position in the body of a sparse record behind the values in front of slot `fi`. -/
def bodyEnd (fi : ℕ) : ℕ :=
  sparseEnd cells sch (recordPresent cells sch) (RowCellPlan.new sch opts.preambleFlags) fi

/-- Where in a sparse record the value of an entry stands. -/
def valuePlace (fi : ℕ) : ℕ :=
  recordBodyStart cells sch opts + slotPlace cells sch (RowCellPlan.new sch opts.preambleFlags) (bodyEnd cells sch opts fi) fi

/-- The entry of a slot leads to its value: its start is kept, it stands in the first 64 KiB, and in frames of v1.2 as
many slots are present in front of it as have entries. -/
structure SparseSlotFits (slot : ℕ) : Prop where
  start : StartKept cells sch (RowCellPlan.new sch opts.preambleFlags) (bodyEnd cells sch opts (sparseHolder cells sch opts slot))
    (sparseHolder cells sch opts slot)
  near : valuePlace cells sch opts (sparseHolder cells sch opts slot) < 65536
  rank : opts.denseFrames = false → (RowCellPlan.new sch opts.preambleFlags).isPacked slot = false ∧
    slotRank (fun i => (recordPresent cells sch).getD i false) slot =
      (leading (recordPresent cells sch) (RowCellPlan.new sch opts.preambleFlags) slot).length

/-! ## Any record -/

/-- What makes the value of a slot readable. -/
structure SlotFits (slot : ℕ) (cell : CompactCell) : Prop where
  kept : CellKept sch slot cell
  dense : recordDense cells sch opts = true → DenseSlotFits cells sch (RowCellPlan.new sch opts.preambleFlags) slot
  sparse : recordDense cells sch opts = false → SparseSlotFits cells sch opts slot

/-- What the reader's walk can follow: no null is in an inline string of a dense record, and packed bools are in dense
frames. -/
structure Followed : Prop where
  strings : recordDense cells sch opts = true → ∀ fi < sch.keys.length, isVarSigil (sch.sigil fi) = true →
    sch.isPromoted fi = false → cellAt cells fi ≠ some .null
  packed : opts.denseFrames = false → ∀ fi, (RowCellPlan.new sch opts.preambleFlags).isPacked fi = false

/-- What makes the values of a record readable. -/
def RecordFits : Prop := ∀ slot < sch.keys.length, ∀ cell, HasValue cells slot cell → SlotFits cells sch opts slot cell

instance (slot : ℕ) : Decidable (DenseSlotFits cells sch plan slot) :=
  decidable_of_iff (_ ∧ _) ⟨fun h => ⟨h.1, h.2⟩, fun h => ⟨h.1, h.2⟩⟩

instance (slot : ℕ) : Decidable (SparseSlotFits cells sch opts slot) :=
  decidable_of_iff (_ ∧ _ ∧ _) ⟨fun h => ⟨h.1, h.2.1, h.2.2⟩, fun h => ⟨h.1, h.2, h.3⟩⟩

instance (slot : ℕ) (cell : CompactCell) : Decidable (SlotFits cells sch opts slot cell) :=
  decidable_of_iff (_ ∧ _ ∧ _) ⟨fun h => ⟨h.1, h.2.1, h.2.2⟩, fun h => ⟨h.1, h.2, h.3⟩⟩

instance : Decidable (RecordFits cells sch opts) :=
  decidable_of_iff (∀ slot < sch.keys.length, ∀ cell ∈ cellAt cells slot, ((∃ c ∈ cells, c.1 = slot) ∧ cell ≠ .null) →
    SlotFits cells sch opts slot cell)
    ⟨fun h slot hslot cell hval => h slot hslot cell hval.2.1 ⟨hval.1, hval.2.2⟩,
      fun h slot hslot cell hcell hval => h slot hslot cell ⟨hval.1, hcell, hval.2⟩⟩

/-- Where in the record the encoder puts the value of a slot. -/
def recordPlace (slot : ℕ) : ℕ :=
  let plan := RowCellPlan.new sch opts.preambleFlags
  if recordDense cells sch opts then
    9 + cellPlace cells sch plan (densePos cells sch plan (wireFront sch plan (denseHolder plan slot))) (denseHolder plan slot) +
      holderByte plan slot
  else valuePlace cells sch opts (sparseHolder cells sch opts slot) + holderByte plan slot

/-- Every slot with a value is found where the encoder put the value, and read back exactly. -/
def RecordReads (r : Reader) (offset : ℕ) : Prop :=
  ∀ slot < sch.keys.length, ∀ cell, HasValue cells slot cell →
    r.resolve offset slot = .ok (offset + recordPlace cells sch opts slot) ∧ r.ReadsExact offset slot cell

end

section

variable {cells : List (ℕ × CompactCell)} {sch : ExtendedSchema} {opts : CompactOptions} {plan : RowCellPlan} {r : Reader}

/-! ## Reading values -/

theorem WrittenColumns.planned (h : WrittenColumns sch opts) : Planned sch (RowCellPlan.new sch opts.preambleFlags) :=
  ⟨h.lengths, planOf_new sch _⟩

/-- A number is read with the width that it was written with. -/
theorem WrittenColumns.planWidth_eq (h : WrittenColumns sch opts) {fi : ℕ} (hstr : sch.sigil fi ≠ SIGIL_STR)
    (hkey : sch.sigil fi ≠ SIGIL_KEYWORD) :
    planWidth sch (RowCellPlan.new sch opts.preambleFlags) fi = sch.cellWidth fi := by
  rw [planWidth, (new_switches sch opts).2]
  cases hn : opts.narrowCells with
  | true => rw [if_pos rfl]
  | false =>
    have hown : sch.isPromoted fi = false := Bool.eq_false_of_not_eq_true fun hp => hstr (h.promoted fi hp)
    rw [if_neg Bool.false_ne_true, ExtendedSchema.cellWidth, hown, beq_eq_false_iff_ne.mpr hkey, h.widths hn fi]
    rfl

/-- A slot's cell is one of the row's. -/
theorem CellRow.cell (h : CellRow cells sch) {slot : ℕ} {cell : CompactCell} (hslot : slot < sch.keys.length)
    (hcell : HasValue cells slot cell) : cell.sigil = sch.sigil slot ∧ ∀ idx, cell = .keyword idx → idx < 65536 := by
  obtain ⟨hin, hat, hnull⟩ := hcell
  obtain ⟨c, hc, hcslot, hcat⟩ := cellAt_mem h.slots hin
  rw [hat, Option.some.injEq] at hcat
  subst hcat
  refine ⟨?_, fun idx hidx => h.keywords c hc idx hidx⟩
  rw [← hcslot]
  exact (h.kinds c hc (hcslot ▸ hslot)).resolve_left hnull

/-- At its place a value is read back exactly when its cell keeps it. -/
theorem reads_exact_iff (hr : PlanReader r sch plan) {offset slot place : ℕ} {bytes : Bytes} {cell : CompactCell}
    (hnull : cell ≠ .null) (hkey : ∀ idx, cell = .keyword idx → idx < 65536)
    (hwidth : cell.sigil ≠ SIGIL_STR → cell.sigil ≠ SIGIL_KEYWORD → planWidth sch plan slot = sch.cellWidth slot)
    (hres : r.resolve offset slot = .ok (place + holderByte plan slot)) (hat : At r.data place bytes)
    (hpacked : plan.isPacked slot = true → ∃ v, cell = .bool v ∧ hasFlag r.flags FLAG_DENSE_FRAMES = true ∧
      ∃ p, (range (bitBytes 8 p) 0 plan.boolWordBytes : Res Bytes) = .ok bytes ∧ p (plan.boolSlots.idxOf slot) = v)
    (hown : plan.isPacked slot = false → appendBytes sch plan slot cell = .ok bytes ∧
      (cell.sigil = SIGIL_BOOL → plan.packedBools = false)) :
    r.ReadsExact offset slot cell ↔ CellKept sch slot cell := by
  cases hp : plan.isPacked slot with
  | true =>
    obtain ⟨v, rfl, hdense, p, hword, hbit⟩ := hpacked hp
    have hread := reads_packed hr hdense hp hword hat hres
    rw [hbit] at hread
    exact ⟨fun _ => trivial, fun _ => hread⟩
  | false =>
    obtain ⟨hbytes, hbool⟩ := hown hp
    rw [(holder_of_unpacked hp).2, Nat.add_zero] at hres
    have hiff : cell.sigil ∈ [SIGIL_INT, SIGIL_FLOAT, SIGIL_TIME, SIGIL_STR] → cell.sigil ≠ SIGIL_KEYWORD →
        (r.ReadsCell offset slot (sch.cellWidth slot) cell ↔ ValueFits sch slot cell) := fun hkind hno =>
      reads_own_iff hr hkind (fun hstr => hwidth hstr hno) hbytes hat hres
    cases cell with
    | i64 v => exact hiff (show SIGIL_INT ∈ _ by decide) (show SIGIL_INT ≠ _ by decide)
    | time v => exact hiff (show SIGIL_TIME ∈ _ by decide) (show SIGIL_TIME ≠ _ by decide)
    | str s => exact hiff (show SIGIL_STR ∈ _ by decide) (show SIGIL_STR ≠ _ by decide)
    | f64 v =>
      have hread := (hiff (show SIGIL_FLOAT ∈ _ by decide) (show SIGIL_FLOAT ≠ _ by decide)).mpr trivial
      rw [Reader.ReadsCell] at hread
      rw [Reader.ReadsExact, Reader.ReadsCell, hread, CellKept, Outcome.ok.injEq]
      · exact Iff.rfl
      · exact fun idx hno => CompactCell.noConfusion hno
    | bool v =>
      rw [appendBytes, hbool rfl, if_neg Bool.false_ne_true] at hbytes
      cases hbytes
      refine ⟨fun _ => trivial, fun _ => ?_⟩
      rw [Reader.ReadsExact, Reader.ReadsCell, Reader.rowGetBool, hr.ext, hr.plan_eq]
      · dsimp only
        rw [hp, if_neg Bool.false_ne_true, Reader.rowGetPlainBool, hres, ok_bind, get_at hat, ok_bind]
        cases v <;> rfl
      · exact fun idx hno => CompactCell.noConfusion hno
    | keyword idx =>
      cases hbytes
      refine ⟨fun _ => trivial, fun _ => ?_⟩
      rw [Reader.ReadsExact, hres, ok_bind, getLE_leBytes hat (hkey idx rfl) hr.small]
    | null => exact absurd rfl hnull

/-! ## The walk of a dense record -/

theorem wireFront_eq {pre rest : List ℕ} {fi : ℕ} (hsplit : heldOrder sch plan = pre ++ fi :: rest) :
    wireFront sch plan fi = pre := by
  have hnd : (heldOrder sch plan).Nodup := denseWireOrder_nodup.filter _
  have hpre : fi ∉ pre := fun hin => by
    rw [hsplit] at hnd
    exact (List.nodup_append.mp hnd).2.2 _ hin _ List.mem_cons_self rfl
  rw [wireFront, hsplit, takeWhile_split hpre]

theorem columnPos_append (order : List ℕ) (f : ℕ) : columnPos cells sch plan (order ++ [f]) =
    columnStep cells sch plan (columnPos cells sch plan order) f := by
  rw [columnPos, List.foldl_append]
  rfl

/-- A string that stands where the walk is. -/
def StringMet (cells : List (ℕ × CompactCell)) (sch : ExtendedSchema) (plan : RowCellPlan) (pre : List ℕ) (f : ℕ) : Prop :=
  ∃ s, cellAt cells f = some (.str s) ∧ sch.sigil f = SIGIL_STR ∧ (utf8 s).length < 2 ^ 32 ∧
    columnPos cells sch plan pre = densePos cells sch plan pre

/-- The walk past the slots in front of a cell goes by their columns where it meets the inline strings among them. -/
theorem walk_front (hplanned : Planned sch plan) (hprom : ∀ fi, sch.isPromoted fi = true → sch.sigil fi = SIGIL_STR)
    {d body : Bytes} {bodyBase : ℕ} (hbody : DenseBodyAt cells sch plan d bodyBase (heldOrder sch plan) body) {pre : List ℕ} :
    ∀ {rest : List ℕ}, heldOrder sch plan = pre ++ rest →
      (∀ p f q, pre = p ++ f :: q → isVarSigil (sch.sigil f) = true → sch.isPromoted f = false → StringMet cells sch plan p f) →
      pre.foldlM (walkStep sch plan d bodyBase) 0 = .ok (columnPos cells sch plan pre) := by
  induction pre using List.reverseRecOn with
  | nil =>
    intro rest _ _
    rfl
  | append_singleton pre f ih =>
    intro rest hsplit hmet
    have hsplit' : heldOrder sch plan = pre ++ f :: rest := by
      rw [hsplit, List.append_assoc]
      rfl
    have hlt := hbody.slots f (hsplit' ▸ List.mem_append_right _ List.mem_cons_self)
    rw [List.foldlM_append, ih hsplit' fun p g q heq => hmet p g (q ++ [f]) (by rw [heq, List.append_assoc]; rfl), ok_bind,
      foldlM_one, columnPos_append, columnStep]
    cases hvar : isVarSigil (sch.sigil f) with
    | false => rw [walkStep_fixed hvar, if_neg Bool.false_ne_true]
    | true =>
      have hpacked := hplanned.unpacked_of_var hlt hvar
      rw [if_pos rfl, walkStep, hpacked, if_neg Bool.false_ne_true]
      cases hp : sch.isPromoted f with
      | true => rw [if_pos rfl, advance_promoted hpacked (hprom f hp) hp]
      | false =>
        obtain ⟨s, hcell, hsig, hlong, hpos⟩ := hmet pre f [] rfl hvar hp
        obtain ⟨-, -, bytes, hbytes, hat⟩ := denseFold_at (hsplit' ▸ hbody.held) (hsplit' ▸ hbody.encoded)
        rw [denseBytes, hpacked, if_neg Bool.false_ne_true, hcell, ofOption_some, okOr_ok, ok_bind, appendBytes, hp,
          if_neg Bool.false_ne_true] at hbytes
        have halign : appendAlign sch plan f (.str s) = 1 := by rw [appendAlign, hp, if_neg Bool.false_ne_true]
        rw [cellPlace_of_cell hpacked hcell, halign, padLen_one, Nat.add_zero, ← hpos] at hat
        have hfit : (utf8 s).length < 256 ^ sch.strLenPrefix f := by
          rcases strLenPrefix_cases hp with hpre | hpre
          · rw [strBytes] at hbytes
            obtain ⟨_, hshort, -⟩ := bind_eq_ok.mp hbytes
            have := ensure_eq_ok.mp hshort hpre
            rw [hpre]
            omega
          · rw [hpre]
            omega
        rw [if_neg Bool.false_ne_true, hcell, advance_inline hbody.small hpacked hsig hp hbytes (hbody.placed.trans hat),
          Nat.mod_eq_of_lt hfit]

theorem bare_denseAllowed (sch : ExtendedSchema) (opts : CompactOptions) :
    (RowCellPlan.bare sch opts.preambleFlags).denseAllowed = opts.denseFrames := by
  have hflags : ∀ a b c d e : Bool, hasFlag ((if a then FLAG_DENSE_FRAMES else 0) ||| (if b then FLAG_PACKED_BOOLS else 0) |||
        (if c then FLAG_NARROW_CELLS else 0) ||| (if d then FLAG_DELTA_TAIL else 0) |||
        (if e then FLAG_DENSE_WIRE_REORDER else 0)) FLAG_DENSE_FRAMES = a := by
    decide
  exact hflags _ _ _ _ _

/-- A dense slot is looked for behind the walk past the slots in front of its cell. -/
theorem denseFieldOffset_front (h : WrittenColumns sch opts) (hdense : opts.denseFrames = true) {d : Bytes} {offset slot : ℕ}
    (hslot : slot < sch.keys.length) : denseFieldOffset d offset slot sch (RowCellPlan.new sch opts.preambleFlags) = (do
      let bodyBase ← usizeAdd offset 9
      let pos ← (wireFront sch (RowCellPlan.new sch opts.preambleFlags)
        (denseHolder (RowCellPlan.new sch opts.preambleFlags) slot)).foldlM
          (walkStep sch (RowCellPlan.new sch opts.preambleFlags) d bodyBase) 0
      let off ← usizeAdd bodyBase (lookPlace sch (RowCellPlan.new sch opts.preambleFlags) pos
        (denseHolder (RowCellPlan.new sch opts.preambleFlags) slot) +
          holderByte (RowCellPlan.new sch opts.preambleFlags) slot)
      .ok (some off)) := by
  have hplanned : Planned sch (RowCellPlan.bare sch opts.preambleFlags) := ⟨h.lengths, planOf_bare sch _⟩
  obtain ⟨pre, rest, hsplit, hpre⟩ := heldOrder_split hplanned hslot
  have hfront := wireFront_eq hsplit
  have horder := (bare_of_opts sch opts).2.2
  cases hreorder : opts.denseWireReorder with
  | false =>
    rw [hreorder] at horder
    rw [new_of_opts hreorder, hfront, denseFieldOffset]
    refine bind_congr fun bodyBase => ?_
    refine (denseWalk_eq hplanned.plan_of.firstBool hsplit hpre).trans (bind_congr fun pos => ?_)
    rw [lookPlace, horder, Bool.false_and, if_neg Bool.false_ne_true]
  | true =>
    rw [hreorder] at horder
    have hwire : denseWireOrder sch (RowCellPlan.bare sch opts.preambleFlags) =
        pre ++ denseHolder (RowCellPlan.bare sch opts.preambleFlags) slot :: rest := by
      rw [← hsplit, heldOrder_reordered hplanned horder, denseWireOrder, horder, if_neg Bool.true_eq_false.mp]
    rw [new_reordered ⟨(bare_denseAllowed sch opts).trans hdense, horder⟩]
    refine (denseFieldOffset_tabled hplanned horder hslot hwire).trans ?_
    rw [← hfront]
    refine bind_congr fun bodyBase => bind_congr fun pos => ?_
    have hlook : lookPlace sch ((RowCellPlan.bare sch opts.preambleFlags).tabled sch) pos
          (denseHolder (RowCellPlan.bare sch opts.preambleFlags) slot) +
            holderByte (RowCellPlan.bare sch opts.preambleFlags) slot =
        if isVarSigil (sch.sigil (denseHolder (RowCellPlan.bare sch opts.preambleFlags) slot)) then pos
        else walkPlace sch (RowCellPlan.bare sch opts.preambleFlags) pos
          (denseHolder (RowCellPlan.bare sch opts.preambleFlags) slot) +
            holderByte (RowCellPlan.bare sch opts.preambleFlags) slot := by
      rw [lookPlace, show ((RowCellPlan.bare sch opts.preambleFlags).tabled sch).denseWireReorder = true from horder, Bool.true_and]
      cases hvar : isVarSigil (sch.sigil (denseHolder (RowCellPlan.bare sch opts.preambleFlags) slot)) with
      | false =>
        rw [if_neg Bool.false_ne_true, if_neg Bool.false_ne_true]
        rfl
      | true =>
        have hunpacked : (RowCellPlan.bare sch opts.preambleFlags).isPacked slot = false := Bool.eq_false_of_not_eq_true fun hp => by
          obtain ⟨hfirst, hpackedFirst⟩ := holder_of_packed hplanned.plan_of.firstBool hp
          have hlt := (first_packed hplanned (isPacked_eq_true.mp hp).1 hfirst).2.1
          rw [hplanned.unpacked_of_var hlt hvar] at hpackedFirst
          cases hpackedFirst
        rw [if_pos rfl, if_pos rfl, (holder_of_unpacked hunpacked).2, Nat.add_zero]
    rw [← hlook]
    rfl

/-- A value in a column of variable length is a string. -/
theorem exists_str_of_var {cell : CompactCell} (h : isVarSigil cell.sigil = true) : ∃ s, cell = .str s := by
  cases cell with
  | str s => exact ⟨s, rfl⟩
  | i64 _ | f64 _ | bool _ | time _ | null | keyword _ =>
    dsimp only [CompactCell.sigil] at h
    exact absurd h (by decide)

/-! ## The record at its place -/

/-- An inline string is looked for where the walk is. -/
theorem lookPlace_inline {pos fi : ℕ} (hpacked : plan.isPacked fi = false) (hsig : sch.sigil fi = SIGIL_STR)
    (hprom : sch.isPromoted fi = false) : lookPlace sch plan pos fi = pos := by
  have hwalk : walkPlace sch plan pos fi = pos := by
    rw [walkPlace, hpacked, hprom, hsig]
    rfl
  rw [lookPlace, hwalk, ite_self]

/-- An inline string is not padded. -/
theorem cellPlace_inline {pos fi : ℕ} {s : String} (hpacked : plan.isPacked fi = false) (hcell : cellAt cells fi = some (.str s))
    (hprom : sch.isPromoted fi = false) : cellPlace cells sch plan pos fi = pos := by
  have halign : appendAlign sch plan fi (.str s) = 1 := by rw [appendAlign, hprom, if_neg Bool.false_ne_true]
  rw [cellPlace_of_cell hpacked hcell, halign, padLen_one, Nat.add_zero]

/-- The slots that lead below a slot that leads are those in front of it. -/
theorem idxOf_leading {present : List Bool} {fi : ℕ} (hleads : Leads present plan fi) : ∀ {n : ℕ}, fi < n →
    (leading present plan n).idxOf fi = (leading present plan fi).length
  | 0, hfi => absurd hfi (Nat.not_lt_zero fi)
  | n + 1, hfi => by
    rw [leading_succ]
    rcases Nat.lt_succ_iff_lt_or_eq.mp hfi with hlt | rfl
    · rw [List.idxOf_append_of_mem (mem_leading.mpr ⟨hlt, hleads⟩)]
      exact idxOf_leading hleads hlt
    · rw [List.idxOf_append_of_notMem fun hin => Nat.lt_irrefl fi (mem_leading.mp hin).1, if_pos hleads, List.idxOf_cons_self,
        Nat.add_zero]

namespace RecordAt

variable {offset slot : ℕ} {record : Bytes} {cell : CompactCell} (h : RecordAt r offset record cells sch opts)

include h

theorem record_small : record.length < 2 ^ 63 := by
  have := h.stands.le
  have := h.reader.small
  omega

/-- A bool is packed where bools are. -/
theorem packed_bool (hslot : slot < sch.keys.length) (hval : HasValue cells slot cell) :
    ((RowCellPlan.new sch opts.preambleFlags).isPacked slot = true → ∃ v, cell = .bool v) ∧
      ((RowCellPlan.new sch opts.preambleFlags).isPacked slot = false → cell.sigil = SIGIL_BOOL →
        (RowCellPlan.new sch opts.preambleFlags).packedBools = false) := by
  have hsig := (h.row.cell hslot hval).1
  have hiff := h.columns.planned.isPacked_iff hslot
  constructor
  · intro hp
    exact exists_bool_of_sigil (hsig.trans (hiff.mp hp).2)
  · intro hp hbool
    refine Bool.eq_false_of_not_eq_true fun hon => ?_
    rw [hiff.mpr ⟨hon, hsig.symm.trans hbool⟩] at hp
    cases hp

/-- The widths of the number cells. -/
theorem width_eq (hslot : slot < sch.keys.length) (hval : HasValue cells slot cell) :
    cell.sigil ≠ SIGIL_STR → cell.sigil ≠ SIGIL_KEYWORD →
      planWidth sch (RowCellPlan.new sch opts.preambleFlags) slot = sch.cellWidth slot := by
  rw [(h.row.cell hslot hval).1]
  exact h.columns.planWidth_eq

section Dense

variable (hd : recordDense cells sch opts = true)

include hd

/-- The body, behind a header that says dense, of a row without absent slots. -/
theorem dense_parts : opts.denseFrames = true ∧ (∀ f < sch.keys.length, ∃ c ∈ cells, c.1 = f) ∧
    get r.data (offset + 8) = .ok 1 ∧ ∃ body, DenseBodyAt cells sch (RowCellPlan.new sch opts.preambleFlags) r.data (offset + 9)
      (heldOrder sch (RowCellPlan.new sch opts.preambleFlags)) body := by
  obtain ⟨body, hbody, rfl⟩ := encodeCompactRecord_full hd h.encoded
  obtain ⟨hfront, hbodyAt⟩ := at_append.mp h.stands
  obtain ⟨-, hhdr⟩ := at_append.mp hfront
  simp only [List.length_append, leBytes_length, List.length_cons, List.length_nil] at hhdr hbodyAt
  rw [recordDense, Bool.and_eq_true, List.all_eq_true] at hd
  refine ⟨hd.1, fun f hf => (recordPresent_getD hf).mp ?_, get_at hhdr, body, denseBodyAt_of hbody h.reader.small hbodyAt⟩
  have hlen : f < (recordPresent cells sch).length := by rwa [recordPresent_length]
  rw [List.getD_eq_getElem _ _ hlen]
  exact hd.2 _ (List.getElem_mem hlen)

/-- A reader looks for a slot behind its walk past the slots in front. -/
theorem dense_resolve (hslot : slot < sch.keys.length) {pos : ℕ}
    (hwalk : (wireFront sch (RowCellPlan.new sch opts.preambleFlags)
      (denseHolder (RowCellPlan.new sch opts.preambleFlags) slot)).foldlM
        (walkStep sch (RowCellPlan.new sch opts.preambleFlags) r.data (offset + 9)) 0 = .ok pos) :
    r.resolve offset slot = usizeAdd (offset + 9) (lookPlace sch (RowCellPlan.new sch opts.preambleFlags) pos
      (denseHolder (RowCellPlan.new sch opts.preambleFlags) slot) +
        holderByte (RowCellPlan.new sch opts.preambleFlags) slot) := by
  obtain ⟨hdense, -, hhdr, body, hbody⟩ := h.dense_parts hd
  have hle := hbody.placed.le
  have hsmall := h.reader.small
  rw [Reader.resolve, h.reader.ext, h.reader.plan_eq, h.reader.dense, hdense]
  dsimp only
  rw [resolveFieldOffset, if_pos rfl, checkedAdd_of (by omega), ok_bind, hhdr, ok_bind, if_pos (by decide),
    denseFieldOffset_front h.columns hdense hslot, usizeAdd_of (by omega), ok_bind, hwalk, ok_bind]
  rw [usizeAdd, usizeAdd]
  split <;> rfl

/-- The slots in front of a slot's cell, and its bytes at their place. -/
theorem dense_slot (hslot : slot < sch.keys.length) : ∃ rest, heldOrder sch (RowCellPlan.new sch opts.preambleFlags) =
      wireFront sch (RowCellPlan.new sch opts.preambleFlags) (denseHolder (RowCellPlan.new sch opts.preambleFlags) slot) ++
        denseHolder (RowCellPlan.new sch opts.preambleFlags) slot :: rest ∧
    ∃ bytes, denseBytes cells sch (RowCellPlan.new sch opts.preambleFlags)
        (denseHolder (RowCellPlan.new sch opts.preambleFlags) slot) = .ok bytes ∧
      At r.data (offset + 9 + cellPlace cells sch (RowCellPlan.new sch opts.preambleFlags)
        (densePos cells sch (RowCellPlan.new sch opts.preambleFlags) (wireFront sch (RowCellPlan.new sch opts.preambleFlags)
          (denseHolder (RowCellPlan.new sch opts.preambleFlags) slot)))
        (denseHolder (RowCellPlan.new sch opts.preambleFlags) slot)) bytes := by
  obtain ⟨-, -, -, body, hbody⟩ := h.dense_parts hd
  obtain ⟨pre, rest, hsplit, -⟩ := heldOrder_split h.columns.planned hslot
  obtain ⟨-, -, bytes, hbytes, hat⟩ := denseFold_at (hsplit ▸ hbody.held) (hsplit ▸ hbody.encoded)
  rw [wireFront_eq hsplit]
  exact ⟨rest, hsplit, bytes, hbytes, hbody.placed.trans hat⟩

/-- At its place the value of a slot is read back exactly when its cell keeps it. -/
theorem dense_reads_iff (hslot : slot < sch.keys.length) (hval : HasValue cells slot cell)
    (hres : r.resolve offset slot = .ok (offset + recordPlace cells sch opts slot)) :
    r.ReadsExact offset slot cell ↔ CellKept sch slot cell := by
  obtain ⟨hdense, -⟩ := h.dense_parts hd
  obtain ⟨rest, -, bytes, hbytes, hat⟩ := h.dense_slot hd hslot
  obtain ⟨hpackedBool, hownBool⟩ := h.packed_bool hslot hval
  rw [recordPlace, hd, if_pos rfl, ← Nat.add_assoc, ← Nat.add_assoc] at hres
  refine reads_exact_iff h.reader.toPlanReader hval.2.2 (h.row.cell hslot hval).2 (h.width_eq hslot hval) hres hat
    (fun hp => ?_) (fun hp => ⟨?_, hownBool hp⟩)
  · obtain ⟨v, rfl⟩ := hpackedBool hp
    rw [denseBytes, if_pos (holder_of_packed h.columns.planned.plan_of.firstBool hp).2] at hbytes
    refine ⟨v, rfl, h.reader.dense.trans hdense, _, hbytes, ?_⟩
    rw [List.getElem?_eq_getElem (List.idxOf_lt_length_iff.mpr (isPacked_eq_true.mp hp).2), List.getElem_idxOf, Option.any_some,
      hval.2.1]
    cases v <;> rfl
  · rw [(holder_of_unpacked hp).1, denseBytes, hp, if_neg Bool.false_ne_true, hval.2.1, ofOption_some, okOr_ok, ok_bind] at hbytes
    exact hbytes

/-- The walk past the slots in front of a cell, where no null is among the inline strings and each of them is found. -/
theorem dense_walk (hslot : slot < sch.keys.length)
    (hnull : ∀ f ∈ wireFront sch (RowCellPlan.new sch opts.preambleFlags) (denseHolder (RowCellPlan.new sch opts.preambleFlags) slot),
      isVarSigil (sch.sigil f) = true → sch.isPromoted f = false → cellAt cells f ≠ some .null)
    (hfound : ∀ f ∈ wireFront sch (RowCellPlan.new sch opts.preambleFlags) (denseHolder (RowCellPlan.new sch opts.preambleFlags) slot),
      f < sch.keys.length → ∀ s, HasValue cells f (.str s) → (RowCellPlan.new sch opts.preambleFlags).isPacked f = false →
        sch.isPromoted f = false → CellKept sch f (.str s) ∧
        lookPlace sch (RowCellPlan.new sch opts.preambleFlags) (columnPos cells sch (RowCellPlan.new sch opts.preambleFlags)
            (wireFront sch (RowCellPlan.new sch opts.preambleFlags) f)) f =
          cellPlace cells sch (RowCellPlan.new sch opts.preambleFlags) (densePos cells sch (RowCellPlan.new sch opts.preambleFlags)
            (wireFront sch (RowCellPlan.new sch opts.preambleFlags) f)) f) :
    (wireFront sch (RowCellPlan.new sch opts.preambleFlags) (denseHolder (RowCellPlan.new sch opts.preambleFlags) slot)).foldlM
        (walkStep sch (RowCellPlan.new sch opts.preambleFlags) r.data (offset + 9)) 0 =
      .ok (columnPos cells sch (RowCellPlan.new sch opts.preambleFlags)
        (wireFront sch (RowCellPlan.new sch opts.preambleFlags) (denseHolder (RowCellPlan.new sch opts.preambleFlags) slot))) := by
  obtain ⟨-, hfull, -, body, hbody⟩ := h.dense_parts hd
  obtain ⟨rest, hsplit, -⟩ := h.dense_slot hd hslot
  have hplanned := h.columns.planned
  refine walk_front hplanned h.columns.promoted hbody hsplit fun p f q hfront hvar hprom => ?_
  have hsplitf : heldOrder sch (RowCellPlan.new sch opts.preambleFlags) =
      p ++ f :: (q ++ denseHolder (RowCellPlan.new sch opts.preambleFlags) slot :: rest) := by
    rw [hsplit, hfront, List.append_assoc]
    rfl
  have hmem : f ∈ wireFront sch (RowCellPlan.new sch opts.preambleFlags) (denseHolder (RowCellPlan.new sch opts.preambleFlags) slot) :=
    hfront ▸ List.mem_append_right _ List.mem_cons_self
  have hf := hbody.slots f (hsplitf ▸ List.mem_append_right _ List.mem_cons_self)
  have hunpacked := hplanned.unpacked_of_var hf hvar
  obtain ⟨c, -, -, hat⟩ := cellAt_mem h.row.slots (hfull f hf)
  have hval : HasValue cells f c.2 := ⟨hfull f hf, hat, fun hno => hnull f hmem hvar hprom (hno ▸ hat)⟩
  obtain ⟨s, hs⟩ : ∃ s, c.2 = .str s := by
    have hsig := (h.row.cell hf hval).1
    rw [← hsig] at hvar
    exact exists_str_of_var hvar
  rw [hs] at hval
  obtain ⟨hkept, hplace⟩ := hfound f hmem hf s hval hunpacked hprom
  have hsig : sch.sigil f = SIGIL_STR := (h.row.cell hf hval).1.symm
  refine ⟨s, hval.2.1, hsig, ?_, ?_⟩
  · rw [CellKept, ValueFits, hprom, if_neg Bool.false_ne_true] at hkept
    · exact hkept
    · exact fun v hno => CompactCell.noConfusion hno
  · rw [wireFront_eq hsplitf, lookPlace_inline hunpacked hsig hprom, cellPlace_inline hunpacked hval.2.1 hprom] at hplace
    exact hplace

/-- The slots in front of a slot's cell are columns. -/
theorem wireFront_lt (hslot : slot < sch.keys.length) {f : ℕ}
    (hf : f ∈ wireFront sch (RowCellPlan.new sch opts.preambleFlags) (denseHolder (RowCellPlan.new sch opts.preambleFlags) slot)) :
    f < sch.keys.length := by
  obtain ⟨-, -, -, body, hbody⟩ := h.dense_parts hd
  obtain ⟨rest, hsplit, -⟩ := h.dense_slot hd hslot
  exact hbody.slots f (hsplit ▸ List.mem_append_left _ hf)

/-- What is found where it stands is looked for there, and the other way round. -/
theorem dense_found_iff (hslot : slot < sch.keys.length) {pos : ℕ}
    (hwalk : (wireFront sch (RowCellPlan.new sch opts.preambleFlags)
      (denseHolder (RowCellPlan.new sch opts.preambleFlags) slot)).foldlM
        (walkStep sch (RowCellPlan.new sch opts.preambleFlags) r.data (offset + 9)) 0 = .ok pos) :
    r.resolve offset slot = .ok (offset + recordPlace cells sch opts slot) ↔
      lookPlace sch (RowCellPlan.new sch opts.preambleFlags) pos (denseHolder (RowCellPlan.new sch opts.preambleFlags) slot) =
        cellPlace cells sch (RowCellPlan.new sch opts.preambleFlags)
          (densePos cells sch (RowCellPlan.new sch opts.preambleFlags) (wireFront sch (RowCellPlan.new sch opts.preambleFlags)
            (denseHolder (RowCellPlan.new sch opts.preambleFlags) slot)))
          (denseHolder (RowCellPlan.new sch opts.preambleFlags) slot) := by
  obtain ⟨rest, -, bytes, hbytes, hat⟩ := h.dense_slot hd hslot
  have hle := hat.le
  have hsmall := h.reader.small
  have hlen := denseBytes_length hbytes
  rw [h.dense_resolve hd hslot hwalk, recordPlace, hd, if_pos rfl]
  have hbyte : holderByte (RowCellPlan.new sch opts.preambleFlags) slot ≤ bytes.length := by
    cases hpacked : (RowCellPlan.new sch opts.preambleFlags).isPacked slot with
    | false => rw [(holder_of_unpacked hpacked).2]; exact Nat.zero_le _
    | true =>
      rw [hlen, denseSize, if_pos (holder_of_packed h.columns.planned.plan_of.firstBool hpacked).2]
      exact Nat.le_of_lt (holderByte_lt hpacked)
  constructor
  · intro hfound
    rw [usizeAdd] at hfound
    split at hfound
    · have := Outcome.ok.inj hfound
      omega
    · cases hfound
  · intro hplace
    rw [hplace, usizeAdd_of (by omega)]
    exact congrArg _ (by omega)

/-- The cells in front of a cell stand where they are looked for if the values in them are read back. -/
theorem dense_place (hstrings : ∀ f < sch.keys.length, isVarSigil (sch.sigil f) = true → sch.isPromoted f = false →
      cellAt cells f ≠ some .null) (hreads : RecordReads cells sch opts r offset) (hslot : slot < sch.keys.length)
    (hval : HasValue cells slot cell) : DenseSlotFits cells sch (RowCellPlan.new sch opts.preambleFlags) slot := by
  induction hn : (wireFront sch (RowCellPlan.new sch opts.preambleFlags)
      (denseHolder (RowCellPlan.new sch opts.preambleFlags) slot)).length using Nat.strong_induction_on generalizing slot cell with
  | _ n ih =>
    have hnull := fun f hf => hstrings f (h.wireFront_lt hd hslot hf)
    refine ⟨hnull, (h.dense_found_iff hd hslot (h.dense_walk hd hslot hnull fun f hf hlt s hvalf hpackedf hpromf => ?_)).mp
      (hreads slot hslot cell hval).1⟩
    obtain ⟨hfound, hexact⟩ := hreads f hlt _ hvalf
    refine ⟨(h.dense_reads_iff hd hlt hvalf hfound).mp hexact, ?_⟩
    -- fewer cells are in front of a string in front
    obtain ⟨p, q, hfront⟩ := List.append_of_mem hf
    obtain ⟨rest, hsplit, -⟩ := h.dense_slot hd hslot
    have hp : wireFront sch (RowCellPlan.new sch opts.preambleFlags) f = p := by
      rw [hfront, List.append_assoc] at hsplit
      exact wireFront_eq hsplit
    have hholder := (holder_of_unpacked hpackedf).1
    have hplace := (ih p.length (by rw [← hn, hfront, List.length_append, List.length_cons]; omega) hlt hvalf
      (by rw [hholder, hp])).place
    rwa [hholder] at hplace

/-- The values of a dense record that fits are found and read back. -/
theorem dense_reads (hfits : RecordFits cells sch opts) (hslot : slot < sch.keys.length) (hval : HasValue cells slot cell) :
    r.resolve offset slot = .ok (offset + recordPlace cells sch opts slot) ∧ r.ReadsExact offset slot cell := by
  have hfit := hfits slot hslot cell hval
  obtain ⟨hstrings, hplace⟩ := hfit.dense hd
  have hwalk := h.dense_walk hd hslot hstrings fun f hf hlt s hvalf hpackedf hpromf => by
    have hfitf := hfits f hlt _ hvalf
    have hplacef := (hfitf.dense hd).place
    rw [(holder_of_unpacked hpackedf).1] at hplacef
    exact ⟨hfitf.kept, hplacef⟩
  have hfound := (h.dense_found_iff hd hslot hwalk).mpr hplace
  exact ⟨hfound, (h.dense_reads_iff hd hslot hval hfound).mpr hfit.kept⟩

end Dense

section Sparse

variable (hs : recordDense cells sch opts = false)

include hs

/-- The word of the entry of a slot that leads, and the value that it should lead to. -/
theorem sparse_entry {fi : ℕ} (hfi : fi < sch.keys.length)
    (hleads : Leads (recordPresent cells sch) (RowCellPlan.new sch opts.preambleFlags) fi) : ∃ bytes,
      slotBytes cells (recordPresent cells sch) sch (RowCellPlan.new sch opts.preambleFlags) fi = .ok bytes ∧
      At r.data (offset + valuePlace cells sch opts fi) bytes ∧ bodyEnd cells sch opts fi + 255 ≤ 2 ^ 64 ∧
      At r.data (offset + recordTableStart cells sch opts +
          (leading (recordPresent cells sch) (RowCellPlan.new sch opts.preambleFlags) sch.keys.length).idxOf fi * 2)
        (leBytes 2 ((recordBodyStart cells sch opts +
          slotStart sch (RowCellPlan.new sch opts.preambleFlags) (bodyEnd cells sch opts fi) fi) % 65536)) := by
  obtain ⟨st, bytes, hst, hroom, hbytes, hat, hentry⟩ := sparse_slot h.encoded hs h.record_small hfi hleads
  have hpos : st.body.length = bodyEnd cells sch opts fi := sparsePrefix_length (boolSlots_nodup sch _) hst
  rw [hpos] at hat hentry hroom
  refine ⟨bytes, hbytes, h.stands.trans hat, hroom, ?_⟩
  have := h.stands.trans hentry
  rwa [← Nat.add_assoc] at this

/-- The entry of a slot leads to its value exactly when its start is kept and it stands in the first 64 KiB. -/
theorem entry_right_iff {fi : ℕ} (hfi : fi < sch.keys.length)
    (hleads : Leads (recordPresent cells sch) (RowCellPlan.new sch opts.preambleFlags) fi) :
    (recordBodyStart cells sch opts +
        slotStart sch (RowCellPlan.new sch opts.preambleFlags) (bodyEnd cells sch opts fi) fi) % 65536 = valuePlace cells sch opts fi ↔
      StartKept cells sch (RowCellPlan.new sch opts.preambleFlags) (bodyEnd cells sch opts fi) fi ∧
        valuePlace cells sch opts fi < 65536 := by
  obtain ⟨bytes, hbytes, -, hroom, -⟩ := h.sparse_entry hs hfi hleads
  have hnear : slotStart sch (RowCellPlan.new sch opts.preambleFlags) (bodyEnd cells sch opts fi) fi ≤
      slotPlace cells sch (RowCellPlan.new sch opts.preambleFlags) (bodyEnd cells sch opts fi) fi + 7 := slotStart_le hbytes hroom
  rw [startKept_iff hroom, valuePlace]
  constructor
  · intro hright
    have hlt := Nat.mod_lt (recordBodyStart cells sch opts +
      slotStart sch (RowCellPlan.new sch opts.preambleFlags) (bodyEnd cells sch opts fi) fi) (show 0 < 65536 by decide)
    exact ⟨by omega, by omega⟩
  · rintro ⟨hkept, hlt⟩
    rw [hkept, Nat.mod_eq_of_lt hlt]

/-- The mask of the record, behind its header or as in v1.2. -/
theorem mask_at : At r.data (offset + 8) ((if opts.denseFrames then [0] else []) ++ buildBitmaskBytes (recordPresent cells sch)) := by
  obtain ⟨_, _, -, -, hmask, -⟩ := encodeCompactRecord_sparse h.encoded hs h.record_small
  exact h.stands.trans hmask

/-- A slot is found where the entry of the slot that leads to it says. -/
theorem sparse_resolve (hslot : slot < sch.keys.length) (hcell : ∃ c ∈ cells, c.1 = slot)
    (hrank : opts.denseFrames = false → (RowCellPlan.new sch opts.preambleFlags).isPacked slot = false ∧
      slotRank (fun i => (recordPresent cells sch).getD i false) slot =
        (leading (recordPresent cells sch) (RowCellPlan.new sch opts.preambleFlags) slot).length) :
    r.resolve offset slot = .ok (offset + (recordBodyStart cells sch opts + slotStart sch (RowCellPlan.new sch opts.preambleFlags)
        (bodyEnd cells sch opts (sparseHolder cells sch opts slot)) (sparseHolder cells sch opts slot)) % 65536 +
          holderByte (RowCellPlan.new sch opts.preambleFlags) slot) := by
  obtain ⟨hfi, hleads, hholder⟩ := sparseHolder_leads hslot hcell
  obtain ⟨bytes, hbytes, -, -, hentry⟩ := h.sparse_entry hs hfi hleads
  have hmask := h.mask_at hs
  have hle := h.stands.le
  have hsmall := h.reader.small
  have hlen : (recordPresent cells sch).length = sch.keys.length := recordPresent_length
  have hpresent := (recordPresent_getD hslot).mpr hcell
  have hnil : recordPresent cells sch ≠ [] := fun hnil => by
    rw [hnil] at hlen
    exact absurd hslot (by rw [← hlen]; exact Nat.not_lt_zero slot)
  have hmod := Nat.mod_lt (recordBodyStart cells sch opts + slotStart sch (RowCellPlan.new sch opts.preambleFlags)
    (bodyEnd cells sch opts (sparseHolder cells sch opts slot)) (sparseHolder cells sch opts slot)) (show 0 < 65536 by decide)
  rw [Reader.resolve, h.reader.ext, h.reader.plan_eq, h.reader.dense]
  dsimp only
  cases hdense : opts.denseFrames with
  | true =>
    rw [hdense, if_pos rfl] at hmask
    obtain ⟨hheader, hmask⟩ := at_append.mp hmask
    have hheader := get_at hheader
    have hbyte : holderByte (RowCellPlan.new sch opts.preambleFlags) slot ≤ 8 := by
      cases hpacked : (RowCellPlan.new sch opts.preambleFlags).isPacked slot with
      | false => rw [(holder_of_unpacked hpacked).2]; exact Nat.zero_le 8
      | true =>
        rw [hpacked, if_pos rfl] at hholder
        rw [slotBytes, if_pos hholder] at hbytes
        have := boolWordBytes_le_of_range hbytes
        have := holderByte_lt hpacked
        omega
    have hstart : recordTableStart cells sch opts = 9 + (buildBitmaskBytes (recordPresent cells sch)).length := by
      rw [recordTableStart, hdense, if_pos rfl, List.length_append, ← Nat.add_assoc]
      rfl
    rw [hstart, ← Nat.add_assoc, ← hlen] at hentry
    rw [resolveFieldOffset, if_pos rfl, checkedAdd_of (by omega), ok_bind, hheader, ok_bind, if_neg (by decide)]
    exact SparseMask.resolve_present ⟨hheader, hmask, hnil, hsmall⟩ hlen (hlen ▸ hslot) hpresent (hlen ▸ hfi) hleads hholder hbyte
      hmod hentry
  | false =>
    obtain ⟨hunpacked, hrank⟩ := hrank hdense
    rw [hunpacked, if_neg Bool.false_ne_true] at hholder
    have hstart : recordTableStart cells sch opts = 8 + (recordPresent cells sch |> buildBitmaskBytes).length := by
      rw [recordTableStart, hdense, if_neg Bool.false_ne_true, List.nil_append]
    have hp : (fun j => decide (j < (recordPresent cells sch).length) && (recordPresent cells sch).getD j false) =
        fun j => (recordPresent cells sch).getD j false := by
      funext j
      by_cases hj : j < (recordPresent cells sch).length
      · rw [decide_eq_true hj, Bool.true_and]
      · rw [decide_eq_false hj, Bool.false_and, List.getD_eq_default _ _ (Nat.le_of_not_lt hj)]
    rw [hholder] at hentry hmod hleads hfi ⊢
    rw [hdense, if_neg Bool.false_ne_true, List.nil_append, buildBitmaskBytes_eq hnil, hp] at hmask
    rw [hstart, buildBitmaskBytes_eq hnil, maskBytes_length, idxOf_leading hleads hfi, ← hrank, ← Nat.add_assoc] at hentry
    rw [resolveFieldOffset, if_neg Bool.false_ne_true, resolveSlot_present hmask hsmall (by omega) hpresent hmod hentry,
      (holder_of_unpacked hunpacked).2, Nat.add_zero]

/-- A slot is found where its value stands exactly when the entry that leads to it is right. -/
theorem sparse_found_iff (hslot : slot < sch.keys.length) (hcell : ∃ c ∈ cells, c.1 = slot)
    (hrank : opts.denseFrames = false → (RowCellPlan.new sch opts.preambleFlags).isPacked slot = false ∧
      slotRank (fun i => (recordPresent cells sch).getD i false) slot =
        (leading (recordPresent cells sch) (RowCellPlan.new sch opts.preambleFlags) slot).length) :
    r.resolve offset slot = .ok (offset + recordPlace cells sch opts slot) ↔
      StartKept cells sch (RowCellPlan.new sch opts.preambleFlags) (bodyEnd cells sch opts (sparseHolder cells sch opts slot))
          (sparseHolder cells sch opts slot) ∧
        valuePlace cells sch opts (sparseHolder cells sch opts slot) < 65536 := by
  obtain ⟨hfi, hleads, -⟩ := sparseHolder_leads hslot hcell
  rw [← h.entry_right_iff hs hfi hleads, h.sparse_resolve hs hslot hcell hrank, recordPlace, hs, if_neg Bool.false_ne_true,
    Outcome.ok.injEq]
  constructor
  · intro heq
    omega
  · intro hright
    rw [hright, Nat.add_assoc]

/-- At its place the value of a slot is read back exactly when its cell keeps it. -/
theorem sparse_reads_iff (hslot : slot < sch.keys.length) (hval : HasValue cells slot cell)
    (hunpacked : opts.denseFrames = false → (RowCellPlan.new sch opts.preambleFlags).isPacked slot = false)
    (hres : r.resolve offset slot = .ok (offset + recordPlace cells sch opts slot)) :
    r.ReadsExact offset slot cell ↔ CellKept sch slot cell := by
  obtain ⟨hfi, hleads, hholder⟩ := sparseHolder_leads hslot hval.1
  obtain ⟨bytes, hbytes, hat, -⟩ := h.sparse_entry hs hfi hleads
  obtain ⟨hpackedBool, hownBool⟩ := h.packed_bool hslot hval
  rw [recordPlace, hs, if_neg Bool.false_ne_true, ← Nat.add_assoc] at hres
  refine reads_exact_iff h.reader.toPlanReader hval.2.2 (h.row.cell hslot hval).2 (h.width_eq hslot hval) hres hat
    (fun hp => ?_) (fun hp => ⟨?_, hownBool hp⟩)
  · obtain ⟨v, rfl⟩ := hpackedBool hp
    have hdense : opts.denseFrames = true := Bool.eq_true_of_not_eq_false fun hno => by
      rw [hunpacked hno] at hp
      cases hp
    rw [hp, if_pos rfl] at hholder
    rw [slotBytes, if_pos hholder] at hbytes
    refine ⟨v, rfl, h.reader.dense.trans hdense, _, hbytes, ?_⟩
    rw [List.getElem?_eq_getElem (List.idxOf_lt_length_iff.mpr (isPacked_eq_true.mp hp).2), List.getElem_idxOf, Option.any_some,
      hval.2.1, (recordPresent_getD hslot).mpr hval.1, Bool.true_and]
    cases v <;> rfl
  · rw [hp, if_neg Bool.false_ne_true] at hholder
    rw [hholder, slotBytes, hp, if_neg Bool.false_ne_true, hval.2.1, ofOption_some, expect_ok, ok_bind] at hbytes
    exact hbytes

/-- An absent slot is not found. -/
theorem sparse_absent (hslot : slot < sch.keys.length) (hcell : ¬ ∃ c ∈ cells, c.1 = slot) : r.resolve offset slot = none' := by
  have hmask := h.mask_at hs
  have hle := h.stands.le
  have hsmall := h.reader.small
  have hlen : (recordPresent cells sch).length = sch.keys.length := recordPresent_length
  have hp : (recordPresent cells sch).getD slot false = false := Bool.eq_false_of_not_eq_true fun hp =>
    hcell ((recordPresent_getD hslot).mp hp)
  have hnil : recordPresent cells sch ≠ [] := fun hnil => by
    rw [hnil] at hlen
    exact absurd hslot (by rw [← hlen]; exact Nat.not_lt_zero slot)
  have hmaskLe := hmask.le
  rw [List.length_append] at hmaskLe
  rw [Reader.resolve, h.reader.ext, h.reader.plan_eq, h.reader.dense]
  dsimp only
  cases hdense : opts.denseFrames with
  | true =>
    rw [hdense, if_pos rfl] at hmask
    obtain ⟨hheader, hmask⟩ := at_append.mp hmask
    have hheader := get_at hheader
    rw [resolveFieldOffset, if_pos rfl, checkedAdd_of (by omega), ok_bind, hheader, ok_bind, if_neg (by decide)]
    exact SparseMask.resolve_absent ⟨hheader, hmask, hnil, hsmall⟩ (hlen ▸ hslot) hp
  | false =>
    rw [hdense, if_neg Bool.false_ne_true, List.nil_append, buildBitmaskBytes_eq hnil] at hmask
    rw [resolveFieldOffset, if_neg Bool.false_ne_true]
    refine resolveSlot_absent hmask hsmall (by omega) fun _ => ?_
    rw [hp, Bool.and_false]

end Sparse

/-- The getters of an absent slot return nothing. -/
theorem reads_absent (hslot : slot < sch.keys.length) (hcell : ¬ ∃ c ∈ cells, c.1 = slot)
    (hunpacked : opts.denseFrames = false → (RowCellPlan.new sch opts.preambleFlags).isPacked slot = false) :
    r.resolve offset slot = none' ∧ r.rowGetI64 offset slot = none' ∧ r.rowGetF64 offset slot = none' ∧
      r.rowGetBool offset slot = none' ∧ r.rowGetStr offset slot = none' := by
  have hs : recordDense cells sch opts = false := Bool.eq_false_of_not_eq_true fun hd =>
    hcell ((h.dense_parts hd).2.1 slot hslot)
  have hres := h.sparse_absent hs hslot hcell
  refine ⟨hres, h.reader.none_of_resolve (fun hp => ?_) hres⟩
  rw [h.reader.dense]
  refine Bool.eq_true_of_not_eq_false fun hno => ?_
  rw [hunpacked hno] at hp
  cases hp

end RecordAt
/-- The entries of a table of v1.2 without packed bools are as many as the present slots in front. -/
theorem slotRank_leading {present : List Bool} (hunpacked : ∀ fi, plan.isPacked fi = false) (slot : ℕ) :
    slotRank (fun i => present.getD i false) slot = (leading present plan slot).length := by
  rw [slotRank, List.countP_eq_length_filter, leading]
  refine congrArg List.length (List.filter_congr fun fi _ => Bool.eq_iff_iff.mpr ?_)
  rw [decide_eq_true_iff]
  exact ⟨fun hp => ⟨hp, fun hno => Bool.noConfusion ((hunpacked fi).symm.trans hno)⟩, And.left⟩

/-- The values of a record that fits are found and read back, whatever nulls are among them; where the reader's walk
meets no null in a string, and packed bools are in dense frames, those of no other record are. -/
theorem record_reads {offset : ℕ} {record : Bytes} (h : RecordAt r offset record cells sch opts) :
    (RecordFits cells sch opts → RecordReads cells sch opts r offset) ∧
      (Followed cells sch opts → RecordReads cells sch opts r offset → RecordFits cells sch opts) := by
  constructor
  · intro hfits slot hslot cell hval
    cases hd : recordDense cells sch opts with
    | true => exact h.dense_reads hd hfits hslot hval
    | false =>
      obtain ⟨hkept, -, hsparse⟩ := hfits slot hslot cell hval
      obtain ⟨hstart, hnear, hrank⟩ := hsparse hd
      have hfound := (h.sparse_found_iff hd hslot hval.1 hrank).mpr ⟨hstart, hnear⟩
      exact ⟨hfound, (h.sparse_reads_iff hd hslot hval (fun hno => (hrank hno).1) hfound).mpr hkept⟩
  · intro hfollowed hreads slot hslot cell hval
    obtain ⟨hfound, hexact⟩ := hreads slot hslot cell hval
    cases hd : recordDense cells sch opts with
    | true =>
      exact ⟨(h.dense_reads_iff hd hslot hval hfound).mp hexact, fun _ => h.dense_place hd (hfollowed.strings hd) hreads hslot hval,
        fun hno => Bool.noConfusion (hd.symm.trans hno)⟩
    | false =>
      have hrank := fun hno => And.intro (hfollowed.packed hno slot)
        (@slotRank_leading _ (recordPresent cells sch) (hfollowed.packed hno) slot)
      obtain ⟨hstart, hnear⟩ := (h.sparse_found_iff hd hslot hval.1 hrank).mp hfound
      exact ⟨(h.sparse_reads_iff hd hslot hval (fun hno => (hrank hno).1) hfound).mp hexact,
        fun hno => Bool.noConfusion (hd.symm.trans hno), fun _ => ⟨hstart, hnear, hrank⟩⟩

end

/-! ## A null that disturbs no value, and one that does -/

/-- Three ints of one byte. -/
def intsSchema : ExtendedSchema where
  keys := ["a", "b", "c"]
  sigils := [SIGIL_INT, SIGIL_INT, SIGIL_INT]
  widths := [1, 1, 1]
  fieldAttrs := []
  valuePool := []

theorem intsSchema_columns : WrittenColumns intsSchema schemaOrder :=
  ⟨rfl, fun fi hp => absurd hp (by simp [ExtendedSchema.isPromoted, intsSchema, hasFlag]), fun hno => absurd hno (by decide)⟩

theorem recordReader_compact {record : Bytes} {sch : ExtendedSchema} (h : record.length < 2 ^ 63) :
    CompactReader (recordReader record sch) sch schemaOrder :=
  ⟨⟨rfl, rfl, h⟩, show hasFlag schemaOrder.preambleFlags FLAG_DENSE_FRAMES = schemaOrder.denseFrames by decide⟩

/-- A null, an int, and no third value: the record is sparse. -/
def gapRow : List (ℕ × CompactCell) := [(0, .null), (1, .i64 5)]

def gapRecord : Bytes := [79, 88, 89, 78, 17, 0, 0, 0, 0, 3, 16, 0, 16, 0, 0, 0, 5]

theorem record_reads_gap : RecordReads gapRow intsSchema schemaOrder (recordReader gapRecord intsSchema) 0 := by
  refine (record_reads ⟨intsSchema_columns, ⟨by decide, by decide, fun c hc idx hidx => ?_⟩, recordReader_compact (by decide),
    by decide +kernel, at_self _⟩).1 fun slot hslot cell hval => ?_
  · have hno : ∀ c ∈ gapRow, c.2 = .null ∨ c.2 = .i64 5 := by decide
    rcases hno c hc with h | h
    · exact CompactCell.noConfusion (h.symm.trans hidx)
    · exact CompactCell.noConfusion (h.symm.trans hidx)
  · have hone : ∀ slot < 3, ∀ cell ∈ cellAt gapRow slot, cell ≠ .null → slot = 1 ∧ cell = .i64 5 := by decide
    obtain ⟨rfl, rfl⟩ := hone slot hslot cell hval.2.1 hval.2.2
    refine ⟨trivial, fun hd => ?_, fun _ => ⟨by decide +kernel, by decide +kernel, fun hno => ?_⟩⟩
    · exact absurd hd (by decide +kernel)
    · exact absurd hno (by decide)

/-- A null and two ints: the record is dense. -/
def nullRow : List (ℕ × CompactCell) := [(0, .null), (1, .i64 5), (2, .i64 6)]

def nullRecord : Bytes := [79, 88, 89, 78, 11, 0, 0, 0, 1, 5, 6]

/-- The null takes no room, and the reader goes past a byte for its column. -/
theorem record_not_read : RecordAt (recordReader nullRecord intsSchema) 0 nullRecord nullRow intsSchema schemaOrder ∧
    HasValue nullRow 1 (.i64 5) ∧ (recordReader nullRecord intsSchema).rowGetI64 0 1 = .ok 6 ∧
    ¬ RecordReads nullRow intsSchema schemaOrder (recordReader nullRecord intsSchema) 0 := by
  have hsix : (recordReader nullRecord intsSchema).rowGetI64 0 1 = .ok 6 := by decide +kernel
  have hval : HasValue nullRow 1 (.i64 5) := ⟨⟨(1, .i64 5), by decide, rfl⟩, by decide +kernel, CompactCell.noConfusion⟩
  refine ⟨⟨intsSchema_columns, ⟨by decide, by decide, fun c hc idx hidx => ?_⟩, recordReader_compact (by decide), by decide +kernel,
    at_self _⟩, hval, hsix, fun hreads => ?_⟩
  · have hno : ∀ c ∈ nullRow, c.2 = .null ∨ c.2 = .i64 5 ∨ c.2 = .i64 6 := by decide
    rcases hno c hc with h | h | h
    · exact CompactCell.noConfusion (h.symm.trans hidx)
    · exact CompactCell.noConfusion (h.symm.trans hidx)
    · exact CompactCell.noConfusion (h.symm.trans hidx)
  · have hread : (recordReader nullRecord intsSchema).rowGetI64 0 1 = .ok 5 := (hreads 1 (by decide) _ hval).2
    rw [hsix] at hread
    exact absurd (Outcome.ok.inj hread) (by decide)

end Nyxis

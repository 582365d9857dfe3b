import Nyxis.OffsetTables
import Nyxis.PackedRecord

/-!
# SparseRecord — sparse records with packed bools

A sparse record has a mask of its present slots, an offset table, and a body in the order of the columns.  The
packed bools share one entry, which leads to the byte of the first present one of them; its start is noted
before the word is padded.

* `sparsePrefix_length`, `sparseEnd_typed`: where the body stands in front of a slot.
* `resolve_present`, `resolve_absent`: what a reader finds.
* `sparse_record_reads_iff`: the slots of a sparse record are found and read back exactly when the word is noted
  where it stands, all values stand in the first 64 KiB, and the values fit their cells.
-/

namespace Nyxis

open Lib Lib.Outcome

/-- Columns of ints, floats, bools, times and strings. -/
structure TypedColumns (sch : ExtendedSchema) : Prop where
  lengths : sch.sigils.length = sch.keys.length
  kinds : ∀ fi < sch.keys.length, sch.sigil fi ∈ [SIGIL_INT, SIGIL_FLOAT, SIGIL_BOOL, SIGIL_TIME, SIGIL_STR]
  promoted : ∀ fi, sch.isPromoted fi = true → sch.sigil fi = SIGIL_STR

/-- A row with cells of their columns' kinds, for some of the slots. -/
structure TypedRow (cells : List (ℕ × CompactCell)) (sch : ExtendedSchema) : Prop where
  slots : ∀ c ∈ cells, c.1 < 65536
  kinds : ∀ c ∈ cells, c.1 < sch.keys.length → c.2.sigil = sch.sigil c.1

instance (present : List Bool) (plan : RowCellPlan) (fi : ℕ) : Decidable (Leads present plan fi) :=
  inferInstanceAs (Decidable (_ ∧ _))

section

variable (cells : List (ℕ × CompactCell)) (sch : ExtendedSchema) (opts : CompactOptions)

/-- The present slots below `m` with an entry of their own. -/
def leading (present : List Bool) (plan : RowCellPlan) (m : ℕ) : List ℕ :=
  (List.range m).filter fun f => Leads present plan f

/-- The length of a sparse body with the values of the slots below `m`. -/
def sparseEnd (present : List Bool) (plan : RowCellPlan) (m : ℕ) : ℕ :=
  (leading present plan m).foldl (fun pos fi => slotPlace cells sch plan pos fi + denseSize cells sch plan fi) 0

/-- The present slots of a record. -/
def recordSlots : List ℕ := (List.range sch.keys.length).filter fun i => (recordPresent cells sch).getD i false

/-- The position in the body behind the values of the slots in front of `fi`. -/
def sparsePos (fi : ℕ) : ℕ :=
  densePos cells sch (RowCellPlan.new sch opts.preambleFlags)
    (leading (recordPresent cells sch) (RowCellPlan.new sch opts.preambleFlags) fi)

/-- The slot with the entry that leads to the value of `slot`. -/
def sparseHolder (slot : ℕ) : ℕ :=
  let plan := RowCellPlan.new sch opts.preambleFlags
  if plan.isPacked slot then ((recordSlots cells sch).find? fun f => plan.boolSlots.contains f).getD slot else slot

/-- Where in a sparse record the value of an entry stands. -/
def entryPlace (fi : ℕ) : ℕ :=
  recordBodyStart cells sch opts +
    cellPlace cells sch (RowCellPlan.new sch opts.preambleFlags) (sparsePos cells sch opts fi) fi

/-- Where in a sparse record the value of a slot stands. -/
def sparsePlace (slot : ℕ) : ℕ :=
  entryPlace cells sch opts (sparseHolder cells sch opts slot) +
    holderByte (RowCellPlan.new sch opts.preambleFlags) slot

end

/-- The cell keeps its value exactly. -/
def CellKept (sch : ExtendedSchema) (slot : ℕ) : CompactCell → Prop
  | .f64 v => keptF64 (sch.cellWidth slot) v = v
  | cell => ValueFits sch slot cell

instance (sch : ExtendedSchema) (slot : ℕ) : ∀ cell, Decidable (CellKept sch slot cell)
  | .f64 v => inferInstanceAs (Decidable (keptF64 _ v = v))
  | .str s => inferInstanceAs (Decidable (ValueFits sch slot (.str s)))
  | .time v => inferInstanceAs (Decidable (ValueFits sch slot (.time v)))
  | .i64 _ | .bool _ | .keyword _ | .null => .isTrue trivial

/-- Every present slot of the record at `offset` is found where the encoder put its value and read back exactly;
a slot that is absent is not found. -/
def SparseReads (r : Reader) (offset : ℕ) (cells : List (ℕ × CompactCell)) (sch : ExtendedSchema) (opts : CompactOptions) :
    Prop :=
  ∀ slot < sch.keys.length,
    ((∃ c ∈ cells, c.1 = slot) → ∃ cell, cellAt cells slot = some cell ∧
      resolveSlotV13Sparse r.data offset slot sch (RowCellPlan.new sch opts.preambleFlags) =
        .ok (offset + sparsePlace cells sch opts slot) ∧ r.ReadsCell offset slot 8 cell) ∧
    ((¬ ∃ c ∈ cells, c.1 = slot) →
      resolveSlotV13Sparse r.data offset slot sch (RowCellPlan.new sch opts.preambleFlags) = none' ∧
        r.rowGetI64 offset slot = none' ∧ r.rowGetF64 offset slot = none' ∧ r.rowGetBool offset slot = none' ∧
        r.rowGetStr offset slot = none')

/-- What makes a sparse record readable: the word of the packed bools is padded by as many bytes as the bit of its
first present bool is away from the start of the word, the values stand in the first 64 KiB and fit their cells. -/
structure SparseRowFits (cells : List (ℕ × CompactCell)) (sch : ExtendedSchema) (opts : CompactOptions) : Prop where
  word : ∀ fi < sch.keys.length, Leads (recordPresent cells sch) (RowCellPlan.new sch opts.preambleFlags) fi →
    (RowCellPlan.new sch opts.preambleFlags).isPacked fi = true →
      padLen (RowCellPlan.new sch opts.preambleFlags).boolWordBytes (sparsePos cells sch opts fi) =
        (RowCellPlan.new sch opts.preambleFlags).boolSlots.idxOf fi / 8
  near : ∀ fi < sch.keys.length, Leads (recordPresent cells sch) (RowCellPlan.new sch opts.preambleFlags) fi →
    entryPlace cells sch opts fi < 65536
  values : ∀ fi < sch.keys.length, (∃ c ∈ cells, c.1 = fi) → ∀ cell, cellAt cells fi = some cell → CellKept sch fi cell

/-! ## Presence -/

section

variable {cells : List (ℕ × CompactCell)} {sch : ExtendedSchema} {opts : CompactOptions} {present : List Bool}
  {plan : RowCellPlan}

theorem recordPresent_length : (recordPresent cells sch).length = sch.keys.length := by
  rw [recordPresent, List.length_map, List.length_range]

theorem recordPresent_getD {slot : ℕ} (hslot : slot < sch.keys.length) :
    (recordPresent cells sch).getD slot false = true ↔ ∃ c ∈ cells, c.1 = slot := by
  have hlen : slot < (recordPresent cells sch).length := by
    rw [recordPresent_length]
    exact hslot
  rw [List.getD_eq_getElem _ _ hlen]
  simp only [recordPresent, List.getElem_map, List.getElem_range, List.any_eq_true, beq_iff_eq]

theorem leading_succ (m : ℕ) : leading present plan (m + 1) =
    leading present plan m ++ if Leads present plan m then [m] else [] := by
  rw [leading, List.range_succ, List.filter_append, ← leading]
  by_cases h : Leads present plan m
  · rw [if_pos h, List.filter_cons_of_pos (p := fun f => decide (Leads present plan f)) (decide_eq_true h), List.filter_nil]
  · rw [if_neg h, List.filter_cons_of_neg (p := fun f => decide (Leads present plan f)) (by rwa [decide_eq_true_iff]),
      List.filter_nil]

theorem mem_leading {n fi : ℕ} : fi ∈ leading present plan n ↔ fi < n ∧ Leads present plan fi := by
  rw [leading, List.mem_filter, List.mem_range, decide_eq_true_iff]

/-- The slots of the offset table are those that lead. -/
theorem offsetTable_eq (n : ℕ) :
    sparseOffsetTableSlots ((List.range n).filter fun i => present.getD i false) plan = leading present plan n := by
  have hmem : ∀ fi, fi ∈ sparseOffsetTableSlots ((List.range n).filter fun i => present.getD i false) plan ↔
      fi ∈ leading present plan n := fun fi => mem_offsetTable.trans mem_leading.symm
  -- both are filters of the same range
  have hfilter : ∀ {p q : ℕ → Bool}, (∀ fi, fi ∈ (List.range n).filter p ↔ fi ∈ (List.range n).filter q) →
      (List.range n).filter p = (List.range n).filter q := by
    intro p q hpq
    refine List.filter_congr fun fi hfi => Bool.eq_iff_iff.mpr ?_
    have hin := hpq fi
    rw [List.mem_filter, List.mem_filter] at hin
    exact ⟨fun ht => (hin.mp ⟨hfi, ht⟩).2, fun ht => (hin.mpr ⟨hfi, ht⟩).2⟩
  rw [sparseOffsetTableSlots] at hmem ⊢
  split at hmem
  · rename_i hoff
    rw [if_pos hoff]
    exact hfilter hmem
  · rename_i hon
    rw [if_neg hon]
    rw [List.filter_filter] at hmem ⊢
    exact hfilter hmem

/-- Only one of the packed bools leads. -/
theorem leading_find (hon : plan.packedBools = true) {n fi : ℕ} (hfi : fi < n) (hleads : Leads present plan fi)
    (hpacked : plan.isPacked fi = true) : (leading present plan n).find? (fun f => plan.boolSlots.contains f) = some fi := by
  rw [leading, List.find?_filter, List.find?_range_eq_some]
  refine ⟨?_, List.mem_range.mpr hfi, fun f hf => ?_⟩
  · exact decide_eq_true ⟨decide_eq_true hleads, List.contains_iff_mem.mpr (isPacked_eq_true.mp hpacked).2⟩
  · rw [Bool.not_eq_true', decide_eq_false_iff_not, decide_eq_true_iff]
    rintro ⟨hf', hbool⟩
    have := hleads.2 hpacked f hf hf'.1
    rw [isPacked_eq_true.mpr ⟨hon, List.contains_iff_mem.mp hbool⟩] at this
    cases this

/-- The slot that leads to a present slot. -/
theorem sparseHolder_leads {slot : ℕ} (hslot : slot < sch.keys.length) (hcell : ∃ c ∈ cells, c.1 = slot) :
    sparseHolder cells sch opts slot < sch.keys.length ∧
      Leads (recordPresent cells sch) (RowCellPlan.new sch opts.preambleFlags) (sparseHolder cells sch opts slot) ∧
      if (RowCellPlan.new sch opts.preambleFlags).isPacked slot
        then (RowCellPlan.new sch opts.preambleFlags).isPacked (sparseHolder cells sch opts slot) = true
        else sparseHolder cells sch opts slot = slot := by
  have hp := (recordPresent_getD hslot).mpr hcell
  rw [sparseHolder]
  cases hpacked : (RowCellPlan.new sch opts.preambleFlags).isPacked slot with
  | false => exact ⟨hslot, ⟨hp, fun hno => Bool.noConfusion (hpacked.symm.trans hno)⟩, rfl⟩
  | true =>
    obtain ⟨hon, hmem⟩ := isPacked_eq_true.mp hpacked
    rw [if_pos rfl, if_pos rfl]
    cases hfind : (recordSlots cells sch).find? fun f => (RowCellPlan.new sch opts.preambleFlags).boolSlots.contains f with
    | none =>
      have hin : slot ∈ recordSlots cells sch := List.mem_filter.mpr ⟨List.mem_range.mpr hslot, hp⟩
      exact absurd (List.contains_iff_mem.mpr hmem) (List.find?_eq_none.mp hfind slot hin)
    | some f => exact (find_packed_iff hon).mp hfind

/-! ## The encoder -/

theorem TypedColumns.planned (h : TypedColumns sch) (hplan : PlanOf sch plan) : Planned sch plan := ⟨h.lengths, hplan⟩

/-- The alignment of a cell of its own is a width, and the cell starts at it. -/
theorem own_start {bodyLen fi : ℕ} {cell : CompactCell} {bytes : Bytes}
    (hkind : cell.sigil ∈ [SIGIL_INT, SIGIL_FLOAT, SIGIL_TIME, SIGIL_STR]) (hsig : cell.sigil = sch.sigil fi)
    (hbytes : appendBytes sch plan fi cell = .ok bytes) (hroom : bodyLen + 255 ≤ 2 ^ 64) :
    0 < appendAlign sch plan fi cell ∧
      sparseCellBodyStart bodyLen fi sch plan = bodyLen + padLen (appendAlign sch plan fi cell) bodyLen := by
  have hpos : ∀ {w : ℕ}, w = 1 ∨ w = 2 ∨ w = 4 ∨ w = 8 → 0 < w ∧ alignTo bodyLen w = bodyLen + padLen w bodyLen := fun hw =>
    ⟨by omega, alignTo_width hw (by omega)⟩
  rw [sparseCellBodyStart, ← hsig]
  cases cell with
  | i64 v =>
    have hw := (encodeIntCell_length hbytes).2
    exact ⟨(hpos hw).1, (if_pos ⟨Or.inl rfl, Or.inr (show SIGIL_INT ≠ SIGIL_BOOL by decide)⟩).trans (hpos hw).2⟩
  | f64 v =>
    have hw : planWidth sch plan fi = 1 ∨ planWidth sch plan fi = 2 ∨ planWidth sch plan fi = 4 ∨ planWidth sch plan fi = 8 :=
      Or.inr (Or.inr (encodeF64Cell_length hbytes).2)
    exact ⟨(hpos hw).1, (if_pos ⟨Or.inr (Or.inl rfl), Or.inr (show SIGIL_FLOAT ≠ SIGIL_BOOL by decide)⟩).trans (hpos hw).2⟩
  | time v =>
    have h8 := hpos (w := 8) (Or.inr (Or.inr (Or.inr rfl)))
    have hno : ¬ (SIGIL_TIME = SIGIL_INT ∨ SIGIL_TIME = SIGIL_FLOAT ∨ SIGIL_TIME = SIGIL_BOOL) := by decide
    exact ⟨h8.1, ((if_neg fun h => hno h.1).trans (if_pos rfl)).trans h8.2⟩
  | str s =>
    have hskip : ∀ {a b c : ℕ}, (if (SIGIL_STR = SIGIL_INT ∨ SIGIL_STR = SIGIL_FLOAT ∨ SIGIL_STR = SIGIL_BOOL) ∧
        (plan.packedBools = false ∨ SIGIL_STR ≠ SIGIL_BOOL) then a else if SIGIL_STR = SIGIL_TIME then b else c) = c :=
      fun {a b c} => (if_neg fun h => absurd h.1 (by decide)).trans (if_neg (by decide))
    by_cases hprom : sch.isPromoted fi = true
    · have h2 := hpos (w := 2) (Or.inr (Or.inl rfl))
      rw [appendAlign, if_pos hprom]
      exact ⟨h2.1, (hskip.trans (if_pos ⟨Or.inr rfl, hprom⟩)).trans h2.2⟩
    · rw [appendAlign, if_neg hprom, padLen_one]
      exact ⟨Nat.one_pos, (hskip.trans (if_neg fun h => hprom h.2)).trans (if_pos rfl)⟩
  | bool v => exact absurd hkind (show SIGIL_BOOL ∉ [SIGIL_INT, SIGIL_FLOAT, SIGIL_TIME, SIGIL_STR] by decide)
  | null => exact absurd hkind (show SIGIL_NULL ∉ [SIGIL_INT, SIGIL_FLOAT, SIGIL_TIME, SIGIL_STR] by decide)
  | keyword idx => exact absurd hkind (show SIGIL_KEYWORD ∉ [SIGIL_INT, SIGIL_FLOAT, SIGIL_TIME, SIGIL_STR] by decide)

theorem slotBytes_length {fi : ℕ} {bytes : Bytes} (h : slotBytes cells present sch plan fi = .ok bytes) :
    bytes.length = denseSize cells sch plan fi := by
  rw [slotBytes] at h
  rw [denseSize]
  by_cases hpacked : plan.isPacked fi = true
  · rw [if_pos hpacked] at h ⊢
    have hle := boolWordBytes_le_of_range h
    rw [range_of (Nat.zero_le _) (by rw [bitBytes_length]; exact hle)] at h
    cases h
    rw [List.length_take, List.drop_zero, bitBytes_length, Nat.sub_zero, Nat.min_eq_left hle]
  · rw [if_neg hpacked] at h ⊢
    obtain ⟨cell, hcell, h⟩ := bind_eq_ok.mp h
    rw [ofOption_eq_ok.mp (expect_eq_ok.mp hcell), Option.map_some, Option.getD_some]
    exact appendBytes_length h

/-- The value of a present slot stands behind the padding of its alignment, and an unpacked one is noted there. -/
theorem slotPlace_eq (hcols : TypedColumns sch) (hrow : TypedRow cells sch) (hplan : PlanOf sch plan)
    (hon : plan.packedBools = true) {bodyLen fi : ℕ} {bytes : Bytes} (hfi : fi < sch.keys.length) (hcell : ∃ c ∈ cells, c.1 = fi)
    (hbytes : slotBytes cells present sch plan fi = .ok bytes) (hroom : bodyLen + 255 ≤ 2 ^ 64) :
    slotPlace cells sch plan bodyLen fi = cellPlace cells sch plan bodyLen fi ∧
      (plan.isPacked fi = false → slotStart sch plan bodyLen fi = cellPlace cells sch plan bodyLen fi) := by
  rw [slotPlace, cellPlace, denseAlign, slotStart]
  rw [slotBytes] at hbytes
  cases hpacked : plan.isPacked fi with
  | true => exact ⟨rfl, fun hno => Bool.noConfusion hno⟩
  | false =>
    obtain ⟨cell, hat, hsig⟩ := exists_cellAt hrow.slots hrow.kinds hfi hcell
    have hown : cell.sigil ∈ [SIGIL_INT, SIGIL_FLOAT, SIGIL_TIME, SIGIL_STR] := by
      refine (mem_kinds (hsig ▸ hcols.kinds fi hfi)).resolve_left fun hbool => ?_
      rw [((hcols.planned hplan).isPacked_iff hfi).mpr ⟨hon, hsig.symm.trans hbool⟩] at hpacked
      cases hpacked
    rw [hpacked, if_neg Bool.false_ne_true, hat, ofOption_some, expect_ok, ok_bind] at hbytes
    obtain ⟨hpos, hstart⟩ := own_start hown hsig hbytes hroom
    simp only [Bool.false_eq_true, if_false, hat, Option.map_some, Option.getD_some, paddedStart, hstart, Nat.add_sub_cancel_left]
    refine ⟨?_, fun _ => trivial⟩
    rw [padLen_of_dvd (padLen_dvd hpos _), Nat.add_zero]

/-- The step lemma of a sparse body: a slot that leads adds its value at its place, any other adds nothing. -/
theorem sparsePrefix_step (hnd : plan.boolSlots.Nodup) {m : ℕ} {st' : SparseBody}
    (h : sparsePrefix cells present sch plan (m + 1) = .ok st') : ∃ st, sparsePrefix cells present sch plan m = .ok st ∧
      ((¬ Leads present plan m ∧ st' = st) ∨
        (Leads present plan m ∧ (∃ bytes, slotBytes cells present sch plan m = .ok bytes) ∧
          st'.body.length = slotPlace cells sch plan st.body.length m + denseSize cells sch plan m)) := by
  rw [sparsePrefix_succ] at h
  obtain ⟨st, hst, hstep⟩ := bind_eq_ok.mp h
  have hemit := (sparsePrefix_run hnd hst).emitted
  refine ⟨st, hst, ?_⟩
  rcases sparseStep_cases hnd hstep with ⟨hskip, rfl⟩ | ⟨hpres, hfirst, -, ⟨bytes, hbytes, hbody⟩, -⟩
  · refine Or.inl ⟨fun hleads => hskip ⟨hleads.1, fun hpacked => Bool.eq_false_of_not_eq_true fun hout => ?_⟩, rfl⟩
    obtain ⟨f, hf, hfp, hfb⟩ := hemit.mp hout
    exact Bool.noConfusion ((hleads.2 hpacked f hf hfp).symm.trans hfb)
  · refine Or.inr ⟨⟨hpres, fun hpacked f hf hfp => Bool.eq_false_of_not_eq_true fun hfb => ?_⟩, ⟨bytes, hbytes⟩, ?_⟩
    · have hout := hfirst hpacked
      rw [hemit.mpr ⟨f, hf, hfp, hfb⟩] at hout
      cases hout
    · rw [hbody, List.length_append, List.length_append, zeros_length, Nat.add_sub_cancel' (le_slotPlace _ _),
        slotBytes_length hbytes]

/-- The body of the slots below `m`. -/
theorem sparsePrefix_length (hnd : plan.boolSlots.Nodup) : ∀ {m : ℕ} {st : SparseBody},
    sparsePrefix cells present sch plan m = .ok st → st.body.length = sparseEnd cells sch present plan m
  | 0, st, h => by
    cases h
    rfl
  | m + 1, st', h => by
    obtain ⟨st, hst, ⟨hno, rfl⟩ | ⟨hleads, -, hlen⟩⟩ := sparsePrefix_step hnd h
    · rw [sparseEnd, leading_succ, if_neg hno, List.append_nil]
      exact sparsePrefix_length hnd hst
    · rw [sparseEnd, leading_succ, if_pos hleads, List.foldl_append, hlen, sparsePrefix_length hnd hst]
      rfl

/-- The body of typed cells. -/
theorem sparseEnd_typed (hcols : TypedColumns sch) (hrow : TypedRow cells sch) (hplan : PlanOf sch plan)
    (hon : plan.packedBools = true) (hnd : plan.boolSlots.Nodup) : ∀ {m : ℕ} {st : SparseBody}, m ≤ sch.keys.length →
      sparsePrefix cells (recordPresent cells sch) sch plan m = .ok st → st.body.length + 255 ≤ 2 ^ 64 →
        st.body.length = densePos cells sch plan (leading (recordPresent cells sch) plan m)
  | 0, st, _, h, _ => by
    cases h
    rfl
  | m + 1, st', hm, h, hroom => by
    rw [leading_succ]
    obtain ⟨st, hst, ⟨hno, rfl⟩ | ⟨hleads, ⟨bytes, hbytes⟩, hlen⟩⟩ := sparsePrefix_step hnd h
    · rw [if_neg hno, List.append_nil]
      exact sparseEnd_typed hcols hrow hplan hon hnd (Nat.le_of_succ_le hm) hst hroom
    · have hle : st.body.length ≤ slotPlace cells sch plan st.body.length m := le_slotPlace _ _
      obtain ⟨hplace, -⟩ := slotPlace_eq hcols hrow hplan hon (Nat.lt_of_succ_le hm)
        ((recordPresent_getD (Nat.lt_of_succ_le hm)).mp hleads.1) hbytes (show st.body.length + 255 ≤ 2 ^ 64 by omega)
      rw [if_pos hleads, densePos_append, hlen, hplace,
        sparseEnd_typed hcols hrow hplan hon hnd (Nat.le_of_succ_le hm) hst (by omega)]

/-- A slot that leads has its value at its place, and its entry in the offset table. -/
theorem sparse_slot {record : Bytes} (h : encodeCompactRecord cells sch opts = .ok record)
    (hsparse : recordDense cells sch opts = false) (hsmall : record.length < 2 ^ 63) {fi : ℕ} (hfi : fi < sch.keys.length)
    (hleads : Leads (recordPresent cells sch) (RowCellPlan.new sch opts.preambleFlags) fi) : ∃ st bytes,
      recordPrefix cells sch opts fi = .ok st ∧ st.body.length + 255 ≤ 2 ^ 64 ∧
      slotBytes cells (recordPresent cells sch) sch (RowCellPlan.new sch opts.preambleFlags) fi = .ok bytes ∧
      At record (recordBodyStart cells sch opts +
        slotPlace cells sch (RowCellPlan.new sch opts.preambleFlags) st.body.length fi) bytes ∧
      At record (recordTableStart cells sch opts +
          (leading (recordPresent cells sch) (RowCellPlan.new sch opts.preambleFlags) sch.keys.length).idxOf fi * 2)
        (leBytes 2 ((recordBodyStart cells sch opts +
          slotStart sch (RowCellPlan.new sch opts.preambleFlags) st.body.length fi) % 65536)) := by
  have htable : recordTableSlots cells sch opts =
      leading (recordPresent cells sch) (RowCellPlan.new sch opts.preambleFlags) sch.keys.length := by
    rw [recordTableSlots, offsetTable_eq]
  have hin : fi ∈ recordTableSlots cells sch opts := by
    rw [htable, mem_leading]
    exact ⟨hfi, hleads⟩
  have hj : (recordTableSlots cells sch opts)[(recordTableSlots cells sch opts).idxOf fi]? = some fi := by
    rw [List.getElem?_eq_getElem (List.idxOf_lt_length_iff.mpr hin), List.getElem_idxOf]
  obtain ⟨st, bytes, hst, hbytes, hat, hentry, -, hroom⟩ := sparse_entry h hsparse hsmall hj
  rw [htable] at hentry
  exact ⟨st, bytes, hst, hroom, hbytes, hat, hentry⟩

end

/-! ## The mask -/

theorem buildBitmaskBytes_eq {present : List Bool} (h : present ≠ []) : buildBitmaskBytes present =
    maskBytes ((present.length + 6) / 7) fun j => decide (j < present.length) && present.getD j false := by
  have hlen := List.length_pos_iff.mpr h
  have hmask := Compiler.bitmaskBytes_eq (fun i => present.getD i false) (n := present.length) ((present.length + 6) / 7) 0
    (present.length + 1) (by omega) (by omega) (by omega)
  rwa [Nat.mul_zero, List.drop_zero] at hmask

section

variable {d : Bytes} {pos k : ℕ} {p : ℕ → Bool} (hat : At d pos (maskBytes k p))

include hat

theorem sparseBit_mask {slot : ℕ} (hslot : slot < 7 * k) : ∀ m i fuel, i + m = k → 7 * i ≤ slot → m ≤ fuel →
    sparseBit d slot fuel (pos + i) (7 * i) = .ok (p slot)
  | 0, _, _, hm, hi, _ => absurd hslot (by omega)
  | m + 1, i, 0, _, _, hfuel => absurd hfuel (by omega)
  | m + 1, i, fuel + 1, hm, hi, hfuel => by
    rw [sparseBit, get_maskBytes hat (by omega), ok_bind]
    by_cases hhere : slot < 7 * i + 7
    · rw [if_pos hhere, testBit_byteOfBits _ (by omega), if_neg (by omega), Nat.add_sub_cancel' hi]
    · rw [if_neg hhere, moreMask_byteOfBits, if_pos (decide_eq_true (by omega))]
      exact sparseBit_mask hslot m (i + 1) fuel (by omega) (by omega) (by omega)

theorem sparseMaskEnd_mask {n : ℕ} (hn : 7 * k < n + 7) (hk : n ≤ 7 * k) : ∀ m i fuel, i + m = k → 0 < m → m ≤ fuel →
    sparseMaskEnd d n fuel (pos + i) (7 * i) = .ok (pos + k)
  | 0, _, _, _, hpos, _ => absurd hpos (Nat.lt_irrefl 0)
  | m + 1, i, 0, _, _, hfuel => absurd hfuel (by omega)
  | m + 1, i, fuel + 1, hm, _, hfuel => by
    rw [sparseMaskEnd, get_maskBytes hat (by omega), ok_bind]
    by_cases hlast : n ≤ 7 * i + 7
    · rw [if_pos hlast, Nat.add_assoc, show i + 1 = k by omega]
    · rw [if_neg hlast, moreMask_byteOfBits, if_pos (decide_eq_true (by omega))]
      exact sparseMaskEnd_mask hn hk m (i + 1) fuel (by omega) (by omega) (by omega)

end

/-! ## Finding slots -/

/-- The mask of a record with `present` slots stands at `offset`, behind a header that says sparse. -/
structure SparseMask (d : Bytes) (offset : ℕ) (present : List Bool) : Prop where
  header : get d (offset + 8) = .ok 0
  mask : At d (offset + 9) (buildBitmaskBytes present)
  some_slot : present ≠ []
  small : d.length < 2 ^ 63

namespace SparseMask

variable {d : Bytes} {offset slot : ℕ} {present : List Bool} {plan : RowCellPlan} {sch : ExtendedSchema}
  (h : SparseMask d offset present)

include h

theorem isBitSet (hslot : slot < present.length) : isBitSetSparse d offset slot = .ok (present.getD slot false) := by
  have hat := h.mask
  have hle := hat.le
  have hsmall := h.small
  rw [buildBitmaskBytes_eq h.some_slot] at hat hle
  rw [maskBytes_length] at hle
  have hbit := sparseBit_mask hat (show slot < 7 * ((present.length + 6) / 7) by omega) _ 0 (d.length + 1)
    (Nat.zero_add _) (Nat.zero_le _) (by omega)
  rw [Nat.mul_zero, Nat.add_zero, decide_eq_true hslot, Bool.true_and] at hbit
  rw [isBitSetSparse, usizeAdd_of (by omega), ok_bind, hbit]

theorem presentSlots : sparsePresentSlots d offset present.length =
    .ok ((List.range present.length).filter fun i => present.getD i false) := by
  rw [sparsePresentSlots, filterMapM_ok (g := Option.guard fun fi => present.getD fi false), List.filterMap_eq_filter]
  intro fi hfi
  rw [h.isBitSet (List.mem_range.mp hfi), ok_bind]
  rfl

theorem maskEnd : sparseBitmaskEnd d offset present.length = .ok (offset + 9 + (buildBitmaskBytes present).length) := by
  have hat := h.mask
  have hle := hat.le
  have hsmall := h.small
  have hpos := List.length_pos_iff.mpr h.some_slot
  rw [buildBitmaskBytes_eq h.some_slot] at hat hle ⊢
  rw [maskBytes_length] at hle ⊢
  have hend := sparseMaskEnd_mask hat (n := present.length) (by omega) (by omega) _ 0 (d.length + 1) (Nat.zero_add _) (by omega)
    (by omega)
  rw [Nat.mul_zero, Nat.add_zero] at hend
  rw [sparseBitmaskEnd, usizeAdd_of (by omega), ok_bind, hend]

/-- A slot that is absent is not found. -/
theorem resolve_absent (hslot : slot < present.length) (hp : present.getD slot false = false) :
    resolveSlotV13Sparse d offset slot sch plan = none' := by
  rw [resolveSlotV13Sparse, h.isBitSet hslot, ok_bind, hp, ensure_not Bool.false_ne_true, err_bind]

/-- A present slot is found through the entry of the slot that leads to it. -/
theorem resolve_present (hlen : present.length = sch.keys.length) {fi o : ℕ}
    (hslot : slot < present.length) (hp : present.getD slot false = true) (hfi : fi < present.length)
    (hleads : Leads present plan fi) (hholder : if plan.isPacked slot then plan.isPacked fi = true else fi = slot)
    (hbyte : holderByte plan slot ≤ 8) (ho : o < 65536)
    (hentry : At d (offset + 9 + (buildBitmaskBytes present).length + (leading present plan present.length).idxOf fi * 2)
      (leBytes 2 o)) :
    resolveSlotV13Sparse d offset slot sch plan = .ok (offset + o + holderByte plan slot) := by
  have hsmall := h.small
  have hread := getRange_at hentry
  have hle := hentry.le
  rw [leBytes_length] at hread hle
  have htable : sparseTableEntry d offset (offset + 9 + (buildBitmaskBytes present).length)
      ((leading present plan present.length).idxOf fi) = .ok (offset + o) := by
    rw [sparseTableEntry, usizeAdd_of (by omega), ok_bind, usizeAdd_of (by omega), ok_bind, hread, ok_bind, leNat_leBytes (by omega),
      usizeAdd_of (by omega)]
  have hin : fi ∈ leading present plan present.length := mem_leading.mpr ⟨hfi, hleads⟩
  rw [resolveSlotV13Sparse, h.isBitSet hslot, ok_bind, hp, ensure_of rfl, ok_bind, ← hlen, h.presentSlots, ok_bind]
  dsimp only
  rw [h.maskEnd, ok_bind, offsetTable_eq]
  cases hpacked : plan.isPacked slot with
  | true =>
    rw [hpacked, if_pos rfl] at hholder
    obtain ⟨hon, hmem⟩ := isPacked_eq_true.mp hpacked
    rw [holderByte, if_pos hpacked] at hbyte ⊢
    rw [if_pos rfl, leading_find hon hfi hleads hholder, ofOption_some, ok_bind, position, if_pos hin, ok_bind, htable, ok_bind,
      position, if_pos hmem, ok_bind, usizeAdd_of (by omega)]
  | false =>
    rw [hpacked, if_neg Bool.false_ne_true] at hholder
    subst hholder
    rw [if_neg Bool.false_ne_true, position, if_pos hin, ok_bind, htable, holderByte, hpacked, if_neg Bool.false_ne_true, Nat.add_zero]

end SparseMask

/-! ## Records -/

/-- A sparse record of typed cells stands at `offset`. -/
structure SparseRecordAt (r : Reader) (offset : ℕ) (record : Bytes) (cells : List (ℕ × CompactCell)) (sch : ExtendedSchema)
    (opts : CompactOptions) : Prop where
  columns : TypedColumns sch
  row : TypedRow cells sch
  dense : opts.denseFrames = true
  packed : opts.packedBools = true
  widths : opts.narrowCells = false → ∀ fi, sch.widths.getD fi 0 = 0
  reader : DenseReader r sch opts
  sparse : recordDense cells sch opts = false
  encoded : encodeCompactRecord cells sch opts = .ok record
  stands : At r.data offset record

namespace SparseRecordAt

variable {r : Reader} {offset slot fi : ℕ} {record : Bytes} {cells : List (ℕ × CompactCell)} {sch : ExtendedSchema}
  {opts : CompactOptions} (h : SparseRecordAt r offset record cells sch opts)

include h

theorem reads : ReadsPlan r sch (RowCellPlan.new sch opts.preambleFlags) :=
  h.reader.readsPlan h.columns.lengths h.columns.kinds h.columns.promoted h.packed h.widths

theorem record_small : record.length < 2 ^ 63 := by
  have := h.stands.le
  have := h.reader.small
  omega

theorem maskAt : SparseMask r.data offset (recordPresent cells sch) := by
  obtain ⟨_, _, -, -, hmask, -⟩ := encodeCompactRecord_sparse h.encoded h.sparse h.record_small
  rw [h.dense, if_pos rfl] at hmask
  have hmask := h.stands.trans hmask
  refine ⟨get_at hmask, (at_append.mp hmask).2, fun hnil => ?_, h.reader.small⟩
  have hsparse := h.sparse
  rw [recordDense, h.dense, hnil] at hsparse
  cases hsparse

/-- The word of the slot's entry, and the value that it should lead to. -/
theorem entry (hfi : fi < sch.keys.length) (hleads : Leads (recordPresent cells sch) (RowCellPlan.new sch opts.preambleFlags) fi) :
    ∃ bytes, slotBytes cells (recordPresent cells sch) sch (RowCellPlan.new sch opts.preambleFlags) fi = .ok bytes ∧
      At r.data (offset + entryPlace cells sch opts fi) bytes ∧ sparsePos cells sch opts fi + 255 ≤ 2 ^ 64 ∧
      At r.data (offset + 9 + (buildBitmaskBytes (recordPresent cells sch)).length +
          (leading (recordPresent cells sch) (RowCellPlan.new sch opts.preambleFlags)
            (recordPresent cells sch).length).idxOf fi * 2)
        (leBytes 2 ((recordBodyStart cells sch opts +
          slotStart sch (RowCellPlan.new sch opts.preambleFlags) (sparsePos cells sch opts fi) fi) % 65536)) := by
  have hplan := planOf_new sch opts.preambleFlags
  obtain ⟨st, bytes, hst, hroom, hbytes, hat, hentry⟩ := sparse_slot h.encoded h.sparse h.record_small hfi hleads
  have hpos : st.body.length = sparsePos cells sch opts fi :=
    sparseEnd_typed h.columns h.row hplan h.reads.packed (boolSlots_nodup sch _) (Nat.le_of_lt hfi) hst hroom
  obtain ⟨hplace, -⟩ := slotPlace_eq h.columns h.row hplan h.reads.packed hfi ((recordPresent_getD hfi).mp hleads.1) hbytes hroom
  have hstart : recordTableStart cells sch opts = 9 + (buildBitmaskBytes (recordPresent cells sch)).length := by
    rw [recordTableStart, h.dense, if_pos rfl, List.length_append, ← Nat.add_assoc]
    rfl
  rw [hplace, hpos] at hat
  rw [hpos, hstart] at hentry
  refine ⟨bytes, hbytes, h.stands.trans hat, hpos ▸ hroom, ?_⟩
  have := h.stands.trans hentry
  rw [recordPresent_length]
  rwa [← Nat.add_assoc, ← Nat.add_assoc] at this

/-- The entry of a slot leads to its value exactly when the word of the packed bools is noted where it stands, and
the value stands in the first 64 KiB. -/
theorem entry_right_iff (hfi : fi < sch.keys.length)
    (hleads : Leads (recordPresent cells sch) (RowCellPlan.new sch opts.preambleFlags) fi) :
    (recordBodyStart cells sch opts +
      slotStart sch (RowCellPlan.new sch opts.preambleFlags) (sparsePos cells sch opts fi) fi) % 65536 =
        entryPlace cells sch opts fi ↔
      ((RowCellPlan.new sch opts.preambleFlags).isPacked fi = true →
        padLen (RowCellPlan.new sch opts.preambleFlags).boolWordBytes (sparsePos cells sch opts fi) =
          (RowCellPlan.new sch opts.preambleFlags).boolSlots.idxOf fi / 8) ∧
      entryPlace cells sch opts fi < 65536 := by
  obtain ⟨bytes, hbytes, -, hroom, -⟩ := h.entry hfi hleads
  obtain ⟨hplace, hown⟩ := slotPlace_eq h.columns h.row (planOf_new sch opts.preambleFlags) h.reads.packed hfi
    ((recordPresent_getD hfi).mp hleads.1) hbytes hroom
  have hnear := slotStart_le hbytes hroom
  rw [hplace] at hnear
  have hmod := Nat.mod_lt (recordBodyStart cells sch opts +
    slotStart sch (RowCellPlan.new sch opts.preambleFlags) (sparsePos cells sch opts fi) fi) (show 0 < 65536 by decide)
  rw [entryPlace]
  cases hpacked : (RowCellPlan.new sch opts.preambleFlags).isPacked fi with
  | true =>
    rw [slotStart, hpacked, if_pos rfl] at hnear hmod ⊢
    rw [cellPlace, denseAlign, hpacked, if_pos rfl] at hnear ⊢
    constructor
    · intro hright
      exact ⟨fun _ => by omega, by omega⟩
    · rintro ⟨hword, hlt⟩
      have hword := hword rfl
      omega
  | false =>
    have hown := hown hpacked
    constructor
    · intro hright
      exact ⟨fun hno => Bool.noConfusion hno, by omega⟩
    · rintro ⟨-, hlt⟩
      rw [hown, Nat.mod_eq_of_lt hlt]

theorem resolve_eq (hslot : slot < sch.keys.length) (hcell : ∃ c ∈ cells, c.1 = slot) :
    resolveSlotV13Sparse r.data offset slot sch (RowCellPlan.new sch opts.preambleFlags) =
      .ok (offset + (recordBodyStart cells sch opts + slotStart sch (RowCellPlan.new sch opts.preambleFlags)
        (sparsePos cells sch opts (sparseHolder cells sch opts slot)) (sparseHolder cells sch opts slot)) % 65536 +
          holderByte (RowCellPlan.new sch opts.preambleFlags) slot) := by
  obtain ⟨hfi, hleads, hholder⟩ := sparseHolder_leads hslot hcell
  obtain ⟨bytes, hbytes, -, -, hentry⟩ := h.entry hfi hleads
  have hbyte : holderByte (RowCellPlan.new sch opts.preambleFlags) slot ≤ 8 := by
    cases hpacked : (RowCellPlan.new sch opts.preambleFlags).isPacked slot with
    | false => rw [(holder_of_unpacked hpacked).2]; exact Nat.zero_le 8
    | true =>
      rw [hpacked, if_pos rfl] at hholder
      rw [slotBytes, if_pos hholder] at hbytes
      have := boolWordBytes_le_of_range hbytes
      have := holderByte_lt hpacked
      omega
  have hlen : (recordPresent cells sch).length = sch.keys.length := recordPresent_length
  exact h.maskAt.resolve_present hlen (hlen ▸ hslot) ((recordPresent_getD hslot).mpr hcell) (hlen ▸ hfi) hleads hholder
    hbyte (Nat.mod_lt _ (by decide)) hentry

/-- The getters go through the same lookup. -/
theorem resolve_sparse : r.resolve offset slot =
    resolveSlotV13Sparse r.data offset slot sch (RowCellPlan.new sch opts.preambleFlags) := by
  have hle := h.stands.le
  have hsmall := h.reader.small
  rw [Reader.resolve, h.reads.ext, h.reads.plan_eq, h.reads.dense]
  dsimp only
  rw [resolveFieldOffset, if_pos rfl, checkedAdd_of (by omega), ok_bind, h.maskAt.header, ok_bind, if_neg (by decide)]

/-- At its place, the value of a present slot is read back exactly when its cell keeps it. -/
theorem reads_iff (hslot : slot < sch.keys.length) (hcell : ∃ c ∈ cells, c.1 = slot)
    (hres : resolveSlotV13Sparse r.data offset slot sch (RowCellPlan.new sch opts.preambleFlags) =
      .ok (offset + sparsePlace cells sch opts slot)) {cell : CompactCell} (hat : cellAt cells slot = some cell) :
    r.ReadsCell offset slot 8 cell ↔ CellKept sch slot cell := by
  obtain ⟨hfi, hleads, hholder⟩ := sparseHolder_leads hslot hcell
  obtain ⟨bytes, hbytes, hvalue, -, -⟩ := h.entry hfi hleads
  obtain ⟨cell', hat', hsig⟩ := exists_cellAt h.row.slots h.row.kinds hslot hcell
  rw [hat] at hat'
  cases hat'
  rw [← h.resolve_sparse, sparsePlace, ← Nat.add_assoc] at hres
  have hpacked_iff := (h.columns.planned (planOf_new sch opts.preambleFlags)).isPacked_iff hslot
  rcases mem_kinds (hsig ▸ h.columns.kinds slot hslot) with hbool | hown
  · have hpacked := hpacked_iff.mpr ⟨h.reads.packed, hsig.symm.trans hbool⟩
    rw [hpacked, if_pos rfl] at hholder
    rw [slotBytes, if_pos hholder] at hbytes
    have hread := reads_packed h.reads.toPlanReader h.reads.dense hpacked hbytes hvalue hres
    rw [List.getElem?_eq_getElem (List.idxOf_lt_length_iff.mpr (isPacked_eq_true.mp hpacked).2), List.getElem_idxOf,
      Option.any_some, hat, (recordPresent_getD hslot).mpr hcell, Bool.true_and] at hread
    obtain ⟨v, rfl⟩ := exists_bool_of_sigil hbool
    refine ⟨fun _ => trivial, fun _ => hread.trans ?_⟩
    cases v <;> rfl
  · have hpacked : (RowCellPlan.new sch opts.preambleFlags).isPacked slot = false := Bool.eq_false_of_not_eq_true fun hp => by
      rw [hsig, (hpacked_iff.mp hp).2] at hown
      exact absurd hown (by decide)
    rw [hpacked, if_neg Bool.false_ne_true] at hholder
    rw [hholder] at hbytes hvalue hres
    rw [slotBytes, hpacked, if_neg Bool.false_ne_true, hat, ofOption_some, expect_ok, ok_bind] at hbytes
    rw [(holder_of_unpacked hpacked).2, Nat.add_zero] at hres
    have hiff := reads_own_iff h.reads.toPlanReader hown (fun hno => h.reads.width slot (hsig ▸ hno)) hbytes hvalue hres
    cases cell with
    | f64 v =>
      have hread := hiff.mpr trivial
      rw [Reader.ReadsCell] at hread
      rw [Reader.ReadsCell, hread, CellKept, Outcome.ok.injEq]
      exact Iff.rfl
    | i64 _ | bool _ | str _ | time _ | null | keyword _ => exact hiff

/-- The getters of an absent slot return nothing. -/
theorem reads_absent (hslot : slot < sch.keys.length) (hcell : ¬ ∃ c ∈ cells, c.1 = slot) :
    resolveSlotV13Sparse r.data offset slot sch (RowCellPlan.new sch opts.preambleFlags) = none' ∧
      r.rowGetI64 offset slot = none' ∧ r.rowGetF64 offset slot = none' ∧ r.rowGetBool offset slot = none' ∧
      r.rowGetStr offset slot = none' := by
  have hp : (recordPresent cells sch).getD slot false = false := Bool.eq_false_of_not_eq_true fun hp =>
    hcell ((recordPresent_getD hslot).mp hp)
  have hnone : resolveSlotV13Sparse r.data offset slot sch (RowCellPlan.new sch opts.preambleFlags) = none' :=
    h.maskAt.resolve_absent (recordPresent_length.symm ▸ hslot) hp
  exact ⟨hnone, h.reads.none_of_resolve (fun _ => h.reads.dense) (h.resolve_sparse.trans hnone)⟩

end SparseRecordAt

/-- Sparse records with packed bools: the slots are found and read back exactly when the record fits. -/
theorem sparse_record_reads_iff {r : Reader} {offset : ℕ} {record : Bytes} {cells : List (ℕ × CompactCell)}
    {sch : ExtendedSchema} {opts : CompactOptions} (h : SparseRecordAt r offset record cells sch opts) :
    SparseReads r offset cells sch opts ↔ SparseRowFits cells sch opts := by
  constructor
  · intro hreads
    -- a slot that leads is present and its own holder, so that its entry is right
    have hentry : ∀ fi < sch.keys.length, Leads (recordPresent cells sch) (RowCellPlan.new sch opts.preambleFlags) fi →
        (recordBodyStart cells sch opts +
          slotStart sch (RowCellPlan.new sch opts.preambleFlags) (sparsePos cells sch opts fi) fi) % 65536 =
            entryPlace cells sch opts fi := by
      intro fi hfi hleads
      have hcell := (recordPresent_getD hfi).mp hleads.1
      obtain ⟨_, -, hres, -⟩ := (hreads fi hfi).1 hcell
      have hself : sparseHolder cells sch opts fi = fi := by
        rw [sparseHolder]
        cases hpacked : (RowCellPlan.new sch opts.preambleFlags).isPacked fi with
        | false => rfl
        | true =>
          have hfirst := (find_packed_iff h.reads.packed).mpr ⟨hfi, hleads, hpacked⟩
          rw [if_pos rfl, recordSlots, hfirst, Option.getD_some]
      have heq := Outcome.ok.inj ((h.resolve_eq hfi hcell).symm.trans hres)
      rw [sparsePlace, hself] at heq
      omega
    refine ⟨fun fi hfi hleads => ?_, fun fi hfi hleads => ?_, fun fi hfi hcell cell hat => ?_⟩
    · exact ((h.entry_right_iff hfi hleads).mp (hentry fi hfi hleads)).1
    · exact ((h.entry_right_iff hfi hleads).mp (hentry fi hfi hleads)).2
    · obtain ⟨cell', hat', hres, hread⟩ := (hreads fi hfi).1 hcell
      rw [hat] at hat'
      cases hat'
      exact (h.reads_iff hfi hcell hres hat).mp hread
  · intro hfits slot hslot
    refine ⟨fun hcell => ?_, fun hcell => h.reads_absent hslot hcell⟩
    obtain ⟨hfi, hleads, -⟩ := sparseHolder_leads hslot hcell
    obtain ⟨cell, hat, -⟩ := exists_cellAt h.row.slots h.row.kinds hslot hcell
    have hres := h.resolve_eq hslot hcell
    rw [(h.entry_right_iff hfi hleads).mpr ⟨hfits.word _ hfi hleads, hfits.near _ hfi hleads⟩, Nat.add_assoc,
      ← sparsePlace] at hres
    exact ⟨cell, hat, hres, (h.reads_iff hslot hcell hres hat).mpr (hfits.values slot hslot hcell cell hat)⟩

/-! ## A record that is read back, and one that is not -/

/-- An int of one byte and two bools. -/
def pairSchema : ExtendedSchema where
  keys := ["id", "ok", "on"]
  sigils := [SIGIL_INT, SIGIL_BOOL, SIGIL_BOOL]
  widths := [1]
  fieldAttrs := []
  valuePool := []

def pairRow : List (ℕ × CompactCell) := [(0, .i64 7), (2, .bool true)]

def pairRecord : Bytes := [79, 88, 89, 78, 18, 0, 0, 0, 0, 5, 16, 0, 17, 0, 0, 0, 7, 2]

theorem sparse_record_reads_pair : SparseReads (recordReader pairRecord pairSchema) 0 pairRow pairSchema schemaOrder := by
  refine (sparse_record_reads_iff ⟨⟨rfl, by decide, fun fi hp => absurd hp (by simp [ExtendedSchema.isPromoted, pairSchema, hasFlag])⟩,
    ⟨by decide, by decide⟩, rfl, rfl, fun hno => absurd hno (by decide), recordReader_dense (by decide), by decide +kernel,
    by decide +kernel, at_self _⟩).mpr ⟨by decide +kernel, by decide +kernel, fun fi hfi hcell cell hat => ?_⟩
  have hkept : ∀ fi < 3, ∀ cell ∈ cellAt pairRow fi, cell = .i64 7 ∨ cell = .bool true := by decide
  rcases hkept fi hfi cell hat with rfl | rfl
  · trivial
  · trivial

/-- The int and the first of the bools, without the others. -/
def flagRow : List (ℕ × CompactCell) := [(0, .i64 7), (1, .bool true)]

def flagRecord : Bytes :=
  [79, 88, 89, 78, 22, 0, 0, 0, 0, 131, 128, 0, 16, 0, 17, 0, 7, 0, 0, 1, 0, 0]

/-- The word is written at position 3 and noted at position 1, so that a `true` is read as `false`. -/
theorem sparse_record_not_read :
    SparseRecordAt (recordReader flagRecord flagsSchema) 0 flagRecord flagRow flagsSchema schemaOrder ∧
      cellAt flagRow 1 = some (.bool true) ∧ (recordReader flagRecord flagsSchema).rowGetBool 0 1 = .ok false ∧
      ¬ SparseReads (recordReader flagRecord flagsSchema) 0 flagRow flagsSchema schemaOrder := by
  have hfalse : (recordReader flagRecord flagsSchema).rowGetBool 0 1 = .ok false := by decide +kernel
  have hcell : cellAt flagRow 1 = some (.bool true) := by decide +kernel
  refine ⟨⟨⟨rfl, by decide +kernel, fun fi hp => absurd hp (by simp [ExtendedSchema.isPromoted, flagsSchema, hasFlag])⟩,
    ⟨by decide, by decide⟩, rfl, rfl, fun hno => absurd hno (by decide), recordReader_dense (by decide), by decide +kernel,
    by decide +kernel, at_self _⟩, hcell, hfalse, fun hreads => ?_⟩
  obtain ⟨cell, hcell', -, hread⟩ := (hreads 1 (by decide)).1 ⟨_, List.mem_cons_of_mem _ List.mem_cons_self, rfl⟩
  rw [hcell] at hcell'
  cases hcell'
  rw [Reader.ReadsCell, hfalse] at hread
  cases hread

end Nyxis

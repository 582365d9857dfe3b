import Nyxis.Acceptance
import Nyxis.Compact.Cells
import Nyxis.Query

/-!
# ReaderSafe — a reader over arbitrary bytes

There is one lemma for each function of the reader, which says what it may be called with.  In the row
layout no byte string makes a call read out of bounds or overflow.

* `safe_resolveSlot`, `safe_resolveFieldOffset`: slots of v1.2 and of compact objects.
* `reader_opened`: what holds of every reader that is opened.
* `safe_rowGetI64`, `safe_rowGetStr`, `safe_walkPath`: calls in the row layout.
-/

namespace Nyxis

open Lib Lib.Outcome

/-! ## Slots of v1.2 objects -/

section Slots

variable {d : Bytes}

theorem safe_maskBit (b : UInt8) (slot : ℕ) (st : MaskState) (bit : ℕ) : Safe (maskBit b slot st bit) Any := by
  unfold maskBit
  refine safe_if (fun _ => ?_) fun _ => ?_
  · exact safe_if (fun _ => safe_ok trivial) fun _ => safe_err
  · exact safe_if (fun _ => safe_ok trivial) fun _ => safe_ok trivial

/-- The walk over a mask ends behind a byte that is there. -/
theorem safe_maskLoop (slot : ℕ) : ∀ (fuel p : ℕ) (st : MaskState),
    Safe (maskLoop d slot fuel p st) fun r => p < r.1 ∧ r.1 ≤ d.length
  | 0, _, _ => safe_err
  | fuel + 1, p, st => by
    rw [maskLoop]
    refine (safe_get d p).bind fun b hp => (safe_checkedAdd p 1).bind fun q hq => ?_
    refine (safe_foldlM (I := Any) trivial fun st _ bit _ => safe_maskBit b slot st bit).bind fun st' _ => ?_
    have hstop : p < q ∧ q ≤ d.length := by omega
    refine safe_if (fun _ => safe_ok hstop) fun _ => safe_if (fun _ => safe_ok hstop) fun _ => ?_
    refine safe_if (fun _ => safe_err) fun _ => ?_
    exact (safe_maskLoop slot fuel q st').mono fun r hr => ⟨hstop.1.trans hr.1, hr.2⟩

theorem safe_skipMask : ∀ (fuel p : ℕ) (b : UInt8), Safe (skipMask d fuel p b) Any
  | 0, _, _ => safe_err
  | fuel + 1, p, b => by
    rw [skipMask]
    refine safe_if (fun _ => ?_) fun _ => safe_ok trivial
    exact (safe_get d p).bind fun b' _ => (safe_checkedAdd p 1).bind fun q _ => safe_skipMask fuel q b'

/-- Two bytes are less than `2 ^ 16`. -/
theorem leNat_lt_of_length {l : Bytes} {a b : ℕ} (h : l.length = b - a) (hab : b = a + 2) : leNat l < 65536 := by
  have hlt := leNat_lt l
  rw [h, hab, Nat.add_sub_cancel_left] at hlt
  exact hlt

theorem safe_tableEntry (objOffset tableStart idx : ℕ) :
    Safe (tableEntry d objOffset tableStart idx) fun q => q < objOffset + 65536 := by
  rw [tableEntry]
  refine (safe_checkedMul idx 2).bind fun rel _ => (safe_checkedAdd tableStart rel).bind fun entry _ => ?_
  refine (safe_checkedAdd entry 2).bind fun stop hstop => (safe_getRange d entry stop).bind fun bytes hbytes => ?_
  have hlt := leNat_lt_of_length hbytes.1 hstop.1
  exact (safe_checkedAdd objOffset (leNat bytes)).mono fun q hq => by omega

/-- A slot is found at a position not far behind the end of the buffer, or not at all. -/
theorem safe_resolveSlot (d : Bytes) (objOffset slot : ℕ) :
    Safe (resolveSlot d objOffset slot) fun q => q < d.length + 65536 := by
  rw [resolveSlot]
  refine (safe_checkedAdd objOffset 8).bind fun p hp => (safe_maskLoop slot _ p _).bind fun r hr => ?_
  obtain ⟨q, idx, b⟩ := r
  dsimp only at hr ⊢
  refine (safe_skipMask _ q b).bind fun start _ => ?_
  exact (safe_tableEntry objOffset start idx).mono fun off hoff => by omega

end Slots

/-! ## Slots of dense records -/

theorem boolWordBytes_le {plan : RowCellPlan} (h : plan.boolSlots.length ≤ 256) : plan.boolWordBytes ≤ 33 := by
  unfold RowCellPlan.boolWordBytes
  split <;> omega

/-- A wire order names each field at most twice. -/
theorem denseWireOrder_length (sch : ExtendedSchema) (plan : RowCellPlan) :
    (denseWireOrder sch plan).length ≤ 2 * sch.keys.length := by
  unfold denseWireOrder
  split
  · rw [List.length_range]
    omega
  · have hfixed := List.length_filter_le (fun fi => !isVarSigil (sch.sigil fi) &&
      (!plan.isPacked fi || plan.firstBool == some fi)) (List.range sch.keys.length)
    have hvars := List.length_filter_le (fun fi => isVarSigil (sch.sigil fi)) (List.range sch.keys.length)
    rw [List.length_range] at hfixed hvars
    rw [denseReordered]
    simp only [List.length_append, List.length_map, List.length_insertionSort]
    omega

theorem advanceDensePastCellFixed_le {plan : RowCellPlan} (h : plan.boolSlots.length ≤ 256) (sch : ExtendedSchema)
    (pos fi : ℕ) : advanceDensePastCellFixed pos fi sch plan ≤ pos + 510 := by
  have hword := boolWordBytes_le h
  have hwidth := planWidth_le sch plan fi
  have hal := alignTo_le pos
  unfold advanceDensePastCellFixed advancePastBoolWord
  dsimp only
  split
  · have := hal plan.boolWordBytes
    omega
  split
  · have := hal (planWidth sch plan fi)
    omega
  split
  · have := hal 2
    omega
  · have := hal 8
    omega

/-- The offsets that a plan holds are small. -/
structure PlanBounded (plan : RowCellPlan) : Prop where
  bools : plan.boolSlots.length ≤ 256
  fixed : ∀ fixed, plan.denseFixedBodyOffsets = some fixed → ∀ o ∈ fixed, ∀ off, o = some off → off < 2 ^ 20
  var : ∀ pos, plan.denseVarBodyStart = some pos → pos < 2 ^ 20

/-- Setting entries of a list keeps what the old and the new entries have in common. -/
theorem forall_mem_set {α : Type} {P : α → Prop} {l : List α} {i : ℕ} {a : α} (h : ∀ o ∈ l, P o) (ha : P a) :
    ∀ o ∈ l.set i a, P o := by
  intro o ho
  rcases List.mem_or_eq_of_mem_set ho with ho | rfl
  · exact h o ho
  · exact ha

theorem precomputeLoop_le {plan : RowCellPlan} (hbools : plan.boolSlots.length ≤ 256) (sch : ExtendedSchema) {B : ℕ} :
    ∀ {l : List ℕ} {pos : ℕ} {out : List (Option ℕ)}, pos + 512 * l.length ≤ B →
      (∀ o ∈ out, ∀ off, o = some off → off ≤ B) →
        (∀ o ∈ (precomputeLoop sch plan l pos out).1, ∀ off, o = some off → off ≤ B) ∧
          ∀ start, (precomputeLoop sch plan l pos out).2 = some start → start ≤ B
  | [], pos, out, _, hout => by
    rw [precomputeLoop]
    exact ⟨hout, fun start hstart => by cases hstart⟩
  | fi :: rest, pos, out, hB, hout => by
    rw [List.length_cons] at hB
    have hword := boolWordBytes_le hbools
    rw [precomputeLoop]
    by_cases hpacked : plan.isPacked fi
    · rw [if_pos hpacked]
      by_cases hfirst : some fi = plan.firstBool
      · -- the bool word: an entry for each bool slot
        have hal := alignTo_le pos plan.boolWordBytes
        rw [if_pos hfirst]
        refine precomputeLoop_le hbools sch (by omega) ?_
        refine List.foldlRecOn (motive := fun out => ∀ o ∈ out, ∀ off, o = some off → off ≤ B) plan.boolSlots.zipIdx _
          hout fun out hout b hb => ?_
        refine forall_mem_set hout fun off hoff => ?_
        cases hoff
        have hidx := List.snd_lt_of_mem_zipIdx hb
        omega
      · rw [if_neg hfirst]
        exact precomputeLoop_le hbools sch (by omega) hout
    · rw [if_neg hpacked]
      by_cases hvar : isVarSigil (sch.sigil fi)
      · rw [if_pos hvar]
        exact ⟨hout, fun start hstart => by cases hstart; omega⟩
      · rw [if_neg hvar]
        have hpast := advanceDensePastCellFixed_le hbools sch pos fi
        refine precomputeLoop_le hbools sch (by omega) (forall_mem_set hout fun off hoff => ?_)
        have hwidth := planWidth_le sch plan fi
        have h2 := alignTo_le pos 2
        have hw := alignTo_le pos (planWidth sch plan fi)
        cases hoff
        split <;> omega

theorem planBounded_new {sch : ExtendedSchema} (hkeys : sch.keys.length ≤ 256)
    (hsigils : sch.sigils.length = sch.keys.length) (flags : ℕ) : PlanBounded (RowCellPlan.new sch flags) := by
  have hbools : (RowCellPlan.bare sch flags).boolSlots.length ≤ 256 := by
    have hle := List.length_filter_le (fun i => sch.sigil i == SIGIL_BOOL) (List.range sch.sigils.length)
    rw [List.length_range] at hle
    show sch.boolSlots.length ≤ 256
    rw [ExtendedSchema.boolSlots]
    omega
  have horder := denseWireOrder_length sch (RowCellPlan.bare sch flags)
  have hroom : 0 + 512 * (denseWireOrder sch (RowCellPlan.bare sch flags)).length ≤ 2 ^ 18 := by omega
  have hnone : ∀ o ∈ List.replicate sch.keys.length (none : Option ℕ), ∀ off, o = some off → off ≤ 2 ^ 18 := by
    intro o ho off hoff
    rw [List.eq_of_mem_replicate ho] at hoff
    cases hoff
  obtain ⟨hfixed, hvar⟩ := precomputeLoop_le hbools sch hroom hnone
  unfold RowCellPlan.new
  dsimp only
  split
  · refine ⟨hbools, fun fixed hf o ho off hoff => ?_, fun pos hpos => ?_⟩
    · cases hf
      have := hfixed o ho off hoff
      omega
    · have := hvar pos hpos
      omega
  · exact ⟨hbools, fun fixed hfixed => absurd hfixed (by simp [RowCellPlan.bare]),
      fun pos hpos => absurd hpos (by simp [RowCellPlan.bare])⟩

section Dense

variable {d : Bytes} (hd : d.length < 2 ^ 63)

include hd

theorem safe_readStrCellLen {off : ℕ} (h : off < 2 ^ 64 - 4) (pre : ℕ) :
    Safe (readStrCellLen d off pre) fun n => n < 2 ^ 32 := by
  rw [readStrCellLen]
  refine safe_if (fun hpre => ?_) fun _ => safe_err
  rw [usizeAdd_of (by omega), ok_bind]
  refine safe_ensure_bind fun hstop => (safe_readLE hstop (by omega)).mono fun n hn => ?_
  rcases hpre with rfl | rfl <;> omega

/-- A cell takes less than `2 ^ 33` bytes. -/
theorem safe_advanceDensePastCell {base pos : ℕ} {plan : RowCellPlan} (hbools : plan.boolSlots.length ≤ 256)
    (hroom : base + pos + 2 ^ 33 < 2 ^ 64) (fi : ℕ) (sch : ExtendedSchema) :
    Safe (advanceDensePastCell d base pos fi sch plan) fun q => q ≤ pos + 2 ^ 33 := by
  have hword := boolWordBytes_le hbools
  have hwidth := planWidth_le sch plan fi
  have hal := alignTo_le pos
  unfold advanceDensePastCell advancePastBoolWord
  dsimp only
  refine safe_if (fun _ => safe_ok ?_) fun _ => safe_if (fun _ => safe_ok ?_) fun _ => ?_
  · have := hal plan.boolWordBytes
    omega
  · have := hal (planWidth sch plan fi)
    omega
  refine safe_if (fun _ => safe_if (fun _ => safe_ok ?_) fun _ => ?_) fun _ => safe_if (fun _ => safe_ok ?_) fun _ => safe_ok ?_
  · have := hal 2
    omega
  · have hpre : sch.strLenPrefix fi ≤ 4 := by
      unfold ExtendedSchema.strLenPrefix
      split_ifs <;> decide
    rw [usizeAdd_of (by omega), ok_bind, usizeAdd_of (by omega), ok_bind]
    refine safe_ensure_bind fun _ => (safe_readStrCellLen hd (by omega) _).bind fun len hlen => safe_ok ?_
    have hpad := padLen_lt (show 0 < 8 by decide) (sch.strLenPrefix fi + len)
    unfold advancePastStrCell
    omega
  · have := hal 2
    omega
  · have := hal 8
    omega

/-- The walk over the rest of a record, from a position that leaves room for its cells. -/
theorem safe_denseVarWalk {base slot : ℕ} {plan : RowCellPlan} (hbools : plan.boolSlots.length ≤ 256)
    (sch : ExtendedSchema) {l : List ℕ} {pos : ℕ} (hroom : base + pos + 2 ^ 33 * l.length + 2 ^ 33 < 2 ^ 64) :
    Safe (denseVarWalk d base slot sch plan l pos) fun o => ∀ off, o = some off → off ≤ base + pos + 2 ^ 33 * l.length := by
  induction l generalizing pos with
  | nil => exact safe_ok fun off hoff => by cases hoff
  | cons fi rest ih =>
    rw [List.length_cons] at hroom ⊢
    rw [denseVarWalk]
    refine safe_if (fun _ => ?_) fun _ => safe_if (fun _ => ?_) fun _ => ?_
    · exact (ih (by omega)).mono fun o ho off hoff => (ho off hoff).trans (by omega)
    · rw [usizeAdd_of (by omega), ok_bind]
      refine safe_ok fun off hoff => ?_
      cases hoff
      omega
    · refine (safe_advanceDensePastCell hd hbools (by omega) fi sch).bind fun q hq => ?_
      exact (ih (by omega)).mono fun o ho off hoff => (ho off hoff).trans (by omega)

theorem safe_denseWalk {base slot : ℕ} {plan : RowCellPlan} (hbools : plan.boolSlots.length ≤ 256)
    (sch : ExtendedSchema) {l : List ℕ} {pos : ℕ} (hroom : base + pos + 2 ^ 33 * l.length + 2 ^ 33 < 2 ^ 64) :
    Safe (denseWalk d base slot sch plan l pos) fun o => ∀ off, o = some off → off ≤ base + pos + 2 ^ 33 * l.length := by
  induction l generalizing pos with
  | nil => exact safe_ok fun off hoff => by cases hoff
  | cons fi rest ih =>
    have hword := boolWordBytes_le hbools
    have hal := alignTo_le pos plan.boolWordBytes
    have hwidth := planWidth_le sch plan fi
    rw [List.length_cons] at hroom ⊢
    rw [denseWalk]
    refine safe_if (fun _ => safe_if (fun _ => ?_) fun _ => ?_) fun _ => safe_if (fun _ => ?_) fun _ => ?_
    · -- the bool word
      refine safe_if (fun hslot => ?_) fun _ => ?_
      · have hidx := List.idxOf_lt_length_of_mem (List.contains_iff_mem.mp hslot)
        dsimp only
        rw [usizeAdd_of (by omega), ok_bind]
        refine safe_ok fun off hoff => ?_
        cases hoff
        omega
      · have hpast : advancePastBoolWord pos plan ≤ pos + 66 := by
          unfold advancePastBoolWord
          omega
        exact (ih (by omega)).mono fun o ho off hoff => (ho off hoff).trans (by omega)
    · exact (ih (by omega)).mono fun o ho off hoff => (ho off hoff).trans (by omega)
    · -- the cell itself
      have h2 := alignTo_le pos 2
      have hw := alignTo_le pos (planWidth sch plan fi)
      dsimp only
      refine (safe_usizeAdd (by split_ifs <;> omega)).bind fun off hoff => safe_ok fun off' hoff' => ?_
      cases hoff'
      rw [hoff]
      split_ifs <;> omega
    · refine (safe_advanceDensePastCell hd hbools (by omega) fi sch).bind fun q hq => ?_
      exact (ih (by omega)).mono fun o ho off hoff => (ho off hoff).trans (by omega)

theorem safe_denseFieldOffset {objOffset : ℕ} (h : objOffset < d.length) (slot : ℕ) {sch : ExtendedSchema}
    (hkeys : sch.keys.length ≤ 256) {plan : RowCellPlan} (hplan : PlanBounded plan) :
    Safe (denseFieldOffset d objOffset slot sch plan) fun o => ∀ off, o = some off → off < d.length + 2 ^ 43 := by
  have horder := denseWireOrder_length sch plan
  rw [denseFieldOffset, usizeAdd_of (by omega), ok_bind]
  split
  · rename_i rel hrel
    obtain ⟨fixed, hfixed, hjoin⟩ := Option.bind_eq_some_iff.mp hrel
    have hget := Option.join_eq_some_iff.mp hjoin
    have hlt := hplan.fixed fixed hfixed _ (List.mem_of_getElem? hget) rel rfl
    rw [usizeAdd_of (by omega), ok_bind]
    refine safe_ok fun off hoff => ?_
    cases hoff
    omega
  · split
    · rename_i fixed pos _ hpos
      have hlt := hplan.var pos hpos
      exact (safe_denseVarWalk hd hplan.bools sch (by omega)).mono fun o ho off hoff =>
        (ho off hoff).trans_lt (by omega)
    · exact (safe_denseWalk hd hplan.bools sch (by omega)).mono fun o ho off hoff => (ho off hoff).trans_lt (by omega)

end Dense

/-! ## Slots of sparse records -/

section Sparse

variable {d : Bytes}

theorem safe_sparseBit (target : ℕ) : ∀ (fuel p cur : ℕ), Safe (sparseBit d target fuel p cur) Any
  | 0, _, _ => safe_err
  | fuel + 1, p, cur => by
    rw [sparseBit]
    refine (safe_get d p).bind fun b _ => safe_if (fun _ => safe_ok trivial) fun _ => ?_
    exact safe_if (fun _ => safe_sparseBit target fuel (p + 1) (cur + 7)) fun _ => safe_err

theorem safe_sparseMaskEnd (n : ℕ) : ∀ (fuel p cur : ℕ), Safe (sparseMaskEnd d n fuel p cur) fun q => q ≤ d.length
  | 0, _, _ => safe_err
  | fuel + 1, p, cur => by
    rw [sparseMaskEnd]
    refine (safe_get d p).bind fun b hp => safe_if (fun _ => safe_ok hp) fun _ => ?_
    exact safe_if (fun _ => safe_sparseMaskEnd n fuel (p + 1) (cur + 7)) fun _ => safe_ok hp

theorem safe_position (slots : List ℕ) (fi : ℕ) : Safe (position slots fi) fun idx => idx < slots.length := by
  unfold position
  exact safe_if (fun h => safe_ok (List.idxOf_lt_length_of_mem h)) fun _ => safe_err

variable (hd : d.length < 2 ^ 63) {objOffset : ℕ} (h : objOffset < d.length)

include hd h

theorem safe_isBitSetSparse (slot : ℕ) : Safe (isBitSetSparse d objOffset slot) Any := by
  rw [isBitSetSparse, usizeAdd_of (by omega), ok_bind]
  have hbit := safe_sparseBit (d := d) slot (d.length + 1) (objOffset + 9) 0
  split
  · exact safe_ok trivial
  · exact safe_ok trivial
  · rename_i hpanic
    exact absurd hpanic hbit.ne_panic

theorem safe_sparsePresentSlots (n : ℕ) : Safe (sparsePresentSlots d objOffset n) fun slots => slots.length ≤ n := by
  rw [sparsePresentSlots]
  refine (safe_filterMapM (Q := Any) fun fi _ => ?_).mono fun slots hslots => ?_
  · exact (safe_isBitSetSparse hd h fi).bind fun set _ => safe_ok fun _ _ => trivial
  · have hle := hslots.1
    rwa [List.length_range] at hle

theorem safe_sparseTableEntry {base idx : ℕ} (hbase : base ≤ d.length) (hidx : idx < 256) :
    Safe (sparseTableEntry d objOffset base idx) fun q => q < d.length + 65536 := by
  rw [sparseTableEntry, usizeAdd_of (by omega), ok_bind, usizeAdd_of (by omega), ok_bind]
  refine (safe_getRange d _ _).bind fun bytes hbytes => ?_
  have hlt := leNat_lt_of_length hbytes.1 rfl
  exact (safe_usizeAdd (by omega)).mono fun q hq => by omega

theorem safe_resolveSlotV13Sparse (slot : ℕ) {sch : ExtendedSchema} (hkeys : sch.keys.length ≤ 256)
    {plan : RowCellPlan} (hbools : plan.boolSlots.length ≤ 256) :
    Safe (resolveSlotV13Sparse d objOffset slot sch plan) fun q => q < d.length + 2 ^ 43 := by
  rw [resolveSlotV13Sparse]
  refine (safe_isBitSetSparse hd h slot).bind fun set _ => safe_ensure_bind fun _ => ?_
  refine (safe_sparsePresentSlots hd h _).bind fun present hpresent => ?_
  have hslots : (sparseOffsetTableSlots present plan).length ≤ 256 := by
    unfold sparseOffsetTableSlots
    split
    · omega
    · exact (List.length_filter_le _ _).trans (by omega)
  dsimp only
  have hend : Safe (sparseBitmaskEnd d objOffset sch.keys.length) fun q => q ≤ d.length := by
    rw [sparseBitmaskEnd, usizeAdd_of (by omega), ok_bind]
    exact safe_sparseMaskEnd _ _ _ _
  refine hend.bind fun base hbase => safe_if (fun _ => ?_) fun _ => ?_
  · refine (safe_ofOption (Q := Any) fun _ _ => trivial).bind fun first _ => ?_
    refine (safe_position _ first).bind fun idx hidx => ?_
    refine (safe_sparseTableEntry hd h hbase (by omega)).bind fun q hq => ?_
    refine (safe_position _ slot).bind fun bit hbit => ?_
    exact (safe_usizeAdd (by omega)).mono fun off hoff => by omega
  · refine (safe_position _ slot).bind fun idx hidx => ?_
    exact (safe_sparseTableEntry hd h hbase (by omega)).mono fun q hq => by omega

end Sparse

/-! ## Compact records -/

section Compact

variable {d : Bytes} (hd : d.length < 2 ^ 63) {sch : ExtendedSchema} (hkeys : sch.keys.length ≤ 256)
  {plan : RowCellPlan} (hplan : PlanBounded plan) (objOffset slot : ℕ)

include hd hkeys hplan

theorem safe_resolveFieldOffset (dense : Bool) :
    Safe (resolveFieldOffset d objOffset slot sch plan dense) fun q => q < d.length + 2 ^ 43 := by
  rw [resolveFieldOffset]
  refine safe_if (fun _ => ?_) fun _ => (safe_resolveSlot d objOffset slot).mono fun q hq => by omega
  refine (safe_checkedAdd objOffset 8).bind fun hdrOff hoff => (safe_get d hdrOff).bind fun hdr hhdr => ?_
  refine safe_if (fun _ => ?_) fun _ => safe_resolveSlotV13Sparse hd (by omega) slot hkeys hplan.bools
  refine (safe_toOpt (safe_denseFieldOffset hd (by omega) slot hkeys hplan)).bind fun o ho => ?_
  exact safe_ofOption ho

theorem safe_readPackedBool : Safe (readPackedBool d objOffset slot sch plan) Any := by
  rw [readPackedBool]
  refine (safe_resolveFieldOffset hd hkeys hplan objOffset slot true).bind fun off _ => ?_
  refine (safe_position _ slot).bind fun bit _ => (safe_get d off).bind fun byte _ => ?_
  exact safe_ok trivial

end Compact

/-- A cell is read where it is, or not at all. -/
theorem safe_cellBytes (w : ℕ) (d : Bytes) (offset : ℕ) : Safe (cellBytes w d offset) Any := by
  rw [cellBytes]
  refine (safe_okOr (safe_checkedAdd offset w)).bind fun stop _ => ?_
  exact (safe_okOr (safe_getRange d offset stop)).bind fun bytes _ => safe_ok trivial

theorem safe_decodeIntCell (d : Bytes) (offset width : ℕ) : Safe (decodeIntCell d offset width) Any := by
  rw [decodeIntCell]
  refine safe_if (fun _ => ?_) fun _ => safe_if (fun _ => ?_) fun _ => safe_err
  · exact (safe_okOr (safe_get d offset)).bind fun b _ => safe_ok trivial
  · exact (safe_cellBytes width d offset).bind fun n _ => safe_ok trivial

theorem safe_decodeF64Cell (d : Bytes) (offset width : ℕ) : Safe (decodeF64Cell d offset width) Any := by
  rw [decodeF64Cell]
  refine safe_if (fun _ => ?_) fun _ => safe_if (fun _ => ?_) fun _ => safe_err
  · exact (safe_cellBytes 4 d offset).bind fun n _ => safe_ok trivial
  · exact (safe_cellBytes 8 d offset).bind fun n _ => safe_ok trivial

theorem safe_deltaRecordOffset (d : Bytes) (layout : DeltaTailLayout) (i : ℕ) :
    Safe (deltaRecordOffset d layout i) Any := by
  rw [deltaRecordOffset]
  refine safe_ensure_bind fun _ => (safe_okOr (safe_checkedMul _ 8)).bind fun anchorRel _ => ?_
  refine (safe_okOr (safe_checkedAdd _ anchorRel)).bind fun anchorOff _ => ?_
  refine (safe_cellBytes 8 d anchorOff).bind fun anchor _ => (safe_okOr (safe_checkedMul i 4)).bind fun deltaRel _ => ?_
  refine (safe_okOr (safe_checkedAdd _ deltaRel)).bind fun deltaOff _ => ?_
  refine (safe_cellBytes 4 d deltaOff).bind fun delta _ => ?_
  exact safe_okOr ((safe_checkedAdd anchor delta).mono fun _ _ => trivial)

/-! ## Opened readers -/

/-- What `Reader.new` has checked. -/
structure Reader.Opened (r : Reader) : Prop where
  small : r.data.length < 2 ^ 63
  size : 32 ≤ r.data.length
  keys : r.keys.length < 65536
  count : r.recordCount < 2 ^ 64
  row : r.layout = .row → r.recordCount < 2 ^ 32 ∧ r.tailStart ≤ r.data.length
  compact : ∀ ext, r.extSchema = some ext → ext.keys.length ≤ 256 ∧ ∃ plan, r.cellPlan = some plan ∧ PlanBounded plan

theorem readStrings_length {msg : String} {d : Bytes} {n pos e : ℕ} {keys : List String}
    (h : readStrings msg d n pos = .ok (keys, e)) : keys.length = n := by
  obtain ⟨names, hnames, hall⟩ := readStrings_eq_ok.mp h
  rw [← hall.length_eq, rawNames_length hnames]

theorem parseExtendedSchema_lengths {d : Bytes} {pos flags stop : ℕ} {ext : ExtendedSchema}
    (h : parseExtendedSchema d pos flags = .ok (ext, stop)) :
    ext.keys.length ≤ 256 ∧ ext.sigils.length = ext.keys.length := by
  rw [parseExtendedSchema] at h
  obtain ⟨p, -, h⟩ := bind_eq_ok.mp h
  obtain ⟨_, -, h⟩ := bind_eq_ok.mp h
  obtain ⟨n, -, h⟩ := bind_eq_ok.mp h
  obtain ⟨_, hn, h⟩ := bind_eq_ok.mp h
  rw [ensure_eq_ok] at hn
  obtain ⟨⟨sigils, p₁⟩, hsigils, h⟩ := bind_eq_ok.mp h
  obtain ⟨⟨keys, p₂⟩, hkeys, h⟩ := bind_eq_ok.mp h
  obtain ⟨⟨widths, p₃⟩, -, h⟩ := bind_eq_ok.mp h
  obtain ⟨⟨attrs, p₄⟩, -, h⟩ := bind_eq_ok.mp h
  obtain ⟨⟨pool, p₅⟩, -, h⟩ := bind_eq_ok.mp h
  obtain ⟨_, -, h⟩ := bind_eq_ok.mp h
  cases h
  have hlen : sigils.length = n := by
    rw [takeBytes] at hsigils
    obtain ⟨q, hq, hsigils⟩ := bind_eq_ok.mp hsigils
    obtain ⟨_, hle, hsigils⟩ := bind_eq_ok.mp hsigils
    obtain ⟨bytes, hbytes, hsigils⟩ := bind_eq_ok.mp hsigils
    cases hsigils
    have hadd : p₁ = p + n := ((safe_okOr (safe_checkedAdd p n)).post hq).1
    have hrange := (safe_range (ε := NxsError) (show p ≤ p₁ by omega) (not_lt.mp (ensure_eq_ok.mp hle))).post hbytes
    omega
  dsimp only
  rw [readStrings_length hkeys, hlen]
  exact ⟨by omega, rfl⟩

theorem parseDeltaTailLayout_count {d : Bytes} {t : ℕ} {layout : DeltaTailLayout}
    (h : parseDeltaTailLayout d t = .ok layout) : layout.recordCount < 2 ^ 32 := by
  rw [parseDeltaTailLayout] at h
  obtain ⟨_, -, h⟩ := bind_eq_ok.mp h
  obtain ⟨_, -, h⟩ := bind_eq_ok.mp h
  obtain ⟨n, hn, h⟩ := bind_eq_ok.mp h
  have hlt := readLE_lt hn
  repeat
    obtain ⟨_, -, h⟩ := bind_eq_ok.mp h
  cases h
  exact hlt

theorem openTail_opened {d : Bytes} {flags t : ℕ} {keys : List String} {sigils : List UInt8}
    {ext : Option ExtendedSchema} {plan : Option RowCellPlan} {r : Reader} (hd : d.length < 2 ^ 63) (hsize : 32 ≤ d.length)
    (hkeys : keys.length < 65536)
    (hcompact : ∀ e, ext = some e → e.keys.length ≤ 256 ∧ ∃ p, plan = some p ∧ PlanBounded p)
    (h : Reader.openTail d flags t keys sigils ext plan = .ok r) : r.Opened := by
  rw [Reader.openTail] at h
  dsimp only at h
  split at h
  · obtain ⟨_, -, h⟩ := bind_eq_ok.mp h
    obtain ⟨count, hcount, h⟩ := bind_eq_ok.mp h
    obtain ⟨_, -, h⟩ := bind_eq_ok.mp h
    obtain ⟨_, -, h⟩ := bind_eq_ok.mp h
    obtain ⟨_, -, h⟩ := bind_eq_ok.mp h
    obtain ⟨_, -, h⟩ := bind_eq_ok.mp h
    cases h
    exact ⟨hd, hsize, hkeys, readLE_lt hcount, fun hrow => (by cases hrow), hcompact⟩
  · split at h
    · obtain ⟨_, -, h⟩ := bind_eq_ok.mp h
      obtain ⟨count, hcount, h⟩ := bind_eq_ok.mp h
      cases h
      exact ⟨hd, hsize, hkeys, readLE_lt hcount, fun hrow => (by cases hrow), hcompact⟩
    · -- the row layout, once the tail pointer is known
      have hrest : ∀ ptr : ℕ, ((do
          ensure (¬ ptr > d.length - 4) .outOfBounds
          if hasFlag flags FLAG_DELTA_TAIL then do
            let layout ← parseDeltaTailLayout d ptr
            .ok ⟨d, flags, keys, sigils, ext, plan, layout.recordCount, ptr, some layout, .row, [], []⟩
          else do
            let recordCount ← readLE d ptr 4
            .ok ⟨d, flags, keys, sigils, ext, plan, recordCount, ptr + 4, none, .row, [], []⟩ : Res Reader) = .ok r) →
          r.Opened := by
        intro ptr h
        obtain ⟨_, hptr, h⟩ := bind_eq_ok.mp h
        rw [ensure_eq_ok] at hptr
        split at h
        · obtain ⟨layout, hlayout, h⟩ := bind_eq_ok.mp h
          cases h
          have hlt := parseDeltaTailLayout_count hlayout
          exact ⟨hd, hsize, hkeys, hlt.trans (by decide), fun _ => ⟨hlt, (by dsimp only; omega)⟩, hcompact⟩
        · obtain ⟨count, hcount, h⟩ := bind_eq_ok.mp h
          cases h
          have hlt := readLE_lt hcount
          exact ⟨hd, hsize, hkeys, hlt.trans (by decide), fun _ => ⟨hlt, (by dsimp only; omega)⟩, hcompact⟩
      split at h
      · obtain ⟨_, -, h⟩ := bind_eq_ok.mp h
        obtain ⟨ptr, -, h⟩ := bind_eq_ok.mp h
        exact hrest ptr h
      · exact hrest t h

theorem reader_opened {file : Slice} {r : Reader} (h : Reader.new file = .ok r) : r.Opened := by
  have hd := file.small
  obtain ⟨hs, -⟩ := (reader_isOk_iff file).mp (isOk_iff.mpr ⟨r, h⟩)
  obtain ⟨keys, sigils, ext, plan, hopen, hschema⟩ := reader_opens h
  have hsize := hs.size
  refine openTail_opened hd hsize ?_ ?_ hopen
  · by_cases hemb : Flagged file.bytes FLAG_SCHEMA_EMBEDDED
    · rw [if_pos hemb] at hschema
      by_cases hv13 : Flagged file.bytes FLAG_V13_COMPACT_MASK
      · rw [if_pos hv13] at hschema
        obtain ⟨e, stop, hparse, rfl, -⟩ := hschema
        have := (parseExtendedSchema_lengths hparse).1
        omega
      · rw [if_neg hv13] at hschema
        obtain ⟨⟨stop, hparse⟩, -⟩ := hschema
        rw [parseSchema_length hd hparse]
        exact word_lt _ _ _
    · rw [if_neg hemb] at hschema
      rw [hschema.1]
      decide
  · intro e he
    subst he
    by_cases hemb : Flagged file.bytes FLAG_SCHEMA_EMBEDDED
    · rw [if_pos hemb] at hschema
      by_cases hv13 : Flagged file.bytes FLAG_V13_COMPACT_MASK
      · rw [if_pos hv13] at hschema
        obtain ⟨e', stop, hparse, -, -, he, hplan⟩ := hschema
        cases he
        obtain ⟨hkeys, hsigils⟩ := parseExtendedSchema_lengths hparse
        exact ⟨hkeys, _, hplan, planBounded_new hkeys hsigils _⟩
      · rw [if_neg hv13] at hschema
        cases hschema.2
    · rw [if_neg hemb] at hschema
      cases hschema.2.2

/-! ## The row layout -/

section Row

theorem safe_slot (r : Reader) (key : String) : Safe (r.slot key) Any := by
  unfold Reader.slot
  exact safe_if (fun _ => safe_ok trivial) fun _ => safe_err

theorem safe_keySigil (r : Reader) (s : ℕ) : Safe (r.keySigil s) Any := safe_ofOption fun _ _ => trivial

variable {r : Reader} (h : r.Opened)

include h

theorem safe_rowRecordOffset (hrow : r.layout = .row) {i : ℕ} (hi : i < r.recordCount) :
    Safe (r.rowRecordOffset i) Any := by
  have hsmall := h.small
  obtain ⟨hcount, htail⟩ := h.row hrow
  rw [Reader.rowRecordOffset]
  split
  · exact safe_toOpt (safe_deltaRecordOffset r.data _ i)
  · rw [usizeMul_of (by omega), ok_bind, usizeAdd_of (by omega), ok_bind, usizeAdd_of (by omega), ok_bind]
    exact (safe_getLE (by omega)).mono fun _ _ => trivial

/-- A record is identified by its index where it has no object. -/
theorem safe_record (i : ℕ) : Safe (r.record i) fun off => r.layout ≠ .row → off < r.recordCount := by
  rw [Reader.record]
  refine safe_ensure_bind fun hi => safe_if (fun hrow => ?_) fun _ => safe_ok fun _ => not_le.mp hi
  exact (safe_rowRecordOffset h hrow (not_le.mp hi)).mono fun off _ hne => absurd hrow hne

theorem safe_resolve (off s : ℕ) : Safe (r.resolve off s) fun q => q < r.data.length + 2 ^ 43 := by
  rw [Reader.resolve]
  split
  · rename_i ext plan hext hplan
    obtain ⟨hkeys, plan', hplan', hbounded⟩ := h.compact ext hext
    rw [hplan] at hplan'
    cases hplan'
    exact safe_resolveFieldOffset h.small hkeys hbounded off s _
  · exact (safe_resolveSlot r.data off s).mono fun q hq => by omega

omit h in
theorem safe_inlineStr {off pre len : ℕ} (hroom : off + pre + len < 2 ^ 64) : Safe (r.inlineStr off pre len) Any := by
  rw [Reader.inlineStr, usizeAdd_of (by omega), ok_bind, usizeAdd_of hroom, ok_bind]
  refine (safe_getRange _ _ _).bind fun bytes _ => ?_
  rw [fromUtf8]
  exact safe_ofOption fun _ _ => trivial

/-- A word or a text near the buffer is read or not there. -/
theorem safe_getLE_near {q w : ℕ} (hq : q < r.data.length + 2 ^ 43) (hw : w ≤ 8) :
    Safe (getLE r.data q w) fun n => n < 256 ^ w := by
  have hsmall := h.small
  exact (safe_getLE (by omega)).mono fun _ hn => hn.1

theorem safe_textAt {q : ℕ} (hq : q < r.data.length + 2 ^ 43) :
    Safe (getLE r.data q 4 >>= fun len => r.inlineStr q 4 len) Any := by
  have hsmall := h.small
  refine (safe_getLE_near h hq (by decide)).bind fun len hlen => ?_
  exact safe_inlineStr (by omega)

theorem safe_rowGetI64 (off s : ℕ) : Safe (r.rowGetI64 off s) Any := by
  rw [Reader.rowGetI64]
  refine (safe_resolve h off s).bind fun q hq => ?_
  split
  · exact safe_toOpt (safe_decodeIntCell r.data q _)
  · exact (safe_getLE_near h hq (Nat.le_refl 8)).map fun _ _ => trivial

theorem safe_rowGetF64 (off s : ℕ) : Safe (r.rowGetF64 off s) Any := by
  rw [Reader.rowGetF64]
  refine (safe_resolve h off s).bind fun q hq => ?_
  split
  · exact safe_toOpt (safe_decodeF64Cell r.data q _)
  · exact (safe_getLE_near h hq (Nat.le_refl 8)).map fun _ _ => trivial

theorem safe_rowGetBool (off s : ℕ) : Safe (r.rowGetBool off s) Any := by
  have hplain : Safe (r.rowGetPlainBool off s) Any := by
    rw [Reader.rowGetPlainBool]
    exact (safe_resolve h off s).bind fun q _ => (safe_get r.data q).bind fun b _ => safe_ok trivial
  rw [Reader.rowGetBool]
  split
  · rename_i ext plan hext hplan
    obtain ⟨hkeys, plan', hplan', hbounded⟩ := h.compact ext hext
    rw [hplan] at hplan'
    cases hplan'
    exact safe_if (fun _ => safe_readPackedBool h.small hkeys hbounded off s) fun _ => hplain
  · exact hplain

theorem safe_rowGetStr (off s : ℕ) : Safe (r.rowGetStr off s) Any := by
  have hsmall := h.small
  rw [Reader.rowGetStr]
  refine (safe_resolve h off s).bind fun q hq => ?_
  split
  · rename_i ext _
    refine safe_if (fun _ => ?_) fun _ => ?_
    · exact (safe_getLE_near h hq (by decide)).bind fun idx _ => safe_ofOption fun _ _ => trivial
    · have hpre : ext.strLenPrefix s ≤ 4 := by
        unfold ExtendedSchema.strLenPrefix
        split_ifs <;> decide
      refine (safe_toOpt (safe_readStrCellLen hsmall (by omega) _)).bind fun len hlen => ?_
      exact safe_inlineStr (by omega)
  · exact safe_textAt h hq

/-- The steps of a path end at a position near the buffer. -/
theorem safe_walkPath : ∀ (parts : List String) (obj : ℕ),
    Safe (r.walkPath parts obj) fun q => q < r.data.length + 2 ^ 43
  | [], _ => safe_err
  | [part], obj => by
    rw [Reader.walkPath]
    refine (safe_slot r part).bind fun s _ => (safe_resolveSlot r.data obj s).mono fun q hq => by omega
  | part :: next :: parts, obj => by
    rw [Reader.walkPath]
    refine (safe_slot r part).bind fun s _ => (safe_resolveSlot r.data obj s).bind fun q hq => ?_
    refine (safe_getLE_near h (by omega) (by decide)).bind fun magic _ => safe_ensure_bind fun _ => ?_
    exact safe_walkPath (next :: parts) q

end Row

end Nyxis

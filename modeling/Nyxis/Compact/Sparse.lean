import Nyxis.Compact.Cells

/-!
# Compact.Sparse — where the values of a sparse record stand

`encodeSparseBody` notes a start for each present slot before it appends the slot's value.  `slotStart`
is what it notes and `slotPlace` where the value comes to stand; the two differ where the value is padded
once more when it is appended.

* `sparseStep_cases`: what one slot adds to a sparse body.
* `sparsePrefix_run`: each value stands at its place, and its start is the one that was noted.
-/

namespace Nyxis

open Lib Lib.Outcome

/-- The start that is noted for a slot. -/
def SparseBody.start? (st : SparseBody) (fi : ℕ) : Option ℕ := (st.starts.find? fun e => e.1 == fi).map Prod.snd

section

variable (cells : List (ℕ × CompactCell)) (present : List Bool) (sch : ExtendedSchema) (plan : RowCellPlan)

/-- The sparse body of the slots below `m`. -/
def sparsePrefix (m : ℕ) : Res SparseBody := (List.range m).foldlM (sparseStep cells present sch plan) ⟨[], [], false⟩

/-- The slot has an entry of its own: it is not one of the packed bools, or the first present one of them. -/
def Leads (fi : ℕ) : Prop :=
  present.getD fi false = true ∧
    (plan.isPacked fi = true → ∀ f < fi, present.getD f false = true → plan.isPacked f = false)

/-- What is noted as the start of a slot behind a body of the given length; for packed bools the word is
shared, and the byte of the slot's bit is added. -/
def slotStart (bodyLen fi : ℕ) : ℕ :=
  if plan.isPacked fi then bodyLen + plan.boolSlots.idxOf fi / 8 else sparseCellBodyStart bodyLen fi sch plan

/-- The position that a cell is padded from: the noted start, where the body does not end behind it. -/
def paddedStart (bodyLen fi : ℕ) : ℕ := bodyLen + (sparseCellBodyStart bodyLen fi sch plan - bodyLen)

/-- Where the value of a slot, or the word of the packed bools, comes to stand. -/
def slotPlace (bodyLen fi : ℕ) : ℕ :=
  if plan.isPacked fi then bodyLen + padLen plan.boolWordBytes bodyLen
  else
    let start := paddedStart sch plan bodyLen fi
    start + padLen (((cellAt cells fi).map (appendAlign sch plan fi)).getD 1) start

/-- The bytes of a slot's value, or those of the word of the packed bools. -/
def slotBytes (fi : ℕ) : Res Bytes :=
  if plan.isPacked fi then
    range (bitBytes 8 fun bi => (plan.boolSlots[bi]?).any fun bs =>
      present.getD bs false && cellAt cells bs == some (.bool true)) 0 plan.boolWordBytes
  else do
    let cell ← expect (ofOption (cellAt cells fi))
    appendBytes sch plan fi cell

end

theorem SparseBody.start?_insert (st : SparseBody) (fi start fj : ℕ) :
    (st.insert fi start).start? fj = if fi = fj then some start else st.start? fj := by
  rw [SparseBody.start?, SparseBody.insert, List.find?_cons]
  by_cases h : fi = fj
  · rw [if_pos h, h, beq_self_eq_true]
    rfl
  · rw [if_neg h, beq_eq_false_iff_ne.mpr h]
    rfl

@[simp] theorem SparseBody.insert_body (st : SparseBody) (fi start : ℕ) : (st.insert fi start).body = st.body := rfl

@[simp] theorem SparseBody.insert_emitted (st : SparseBody) (fi start : ℕ) :
    (st.insert fi start).boolWordEmitted = st.boolWordEmitted := rfl

/-- The starts that are noted with the word of the packed bools. -/
theorem wordStarts (present : List Bool) (base fj : ℕ) : ∀ {slots : List ℕ} (k : ℕ) (st : SparseBody), slots.Nodup →
    let st' := (slots.zipIdx k).foldl (fun st b => if present.getD b.1 false then st.insert b.1 (base + b.2 / 8) else st) st
    st'.body = st.body ∧ st'.boolWordEmitted = st.boolWordEmitted ∧
      st'.start? fj = if fj ∈ slots ∧ present.getD fj false = true then some (base + (k + slots.idxOf fj) / 8)
        else st.start? fj
  | [], k, st, _ => by
    refine ⟨rfl, rfl, ?_⟩
    rw [if_neg (fun h => absurd h.1 List.not_mem_nil)]
    rfl
  | s :: slots, k, st, hnd => by
    rw [List.nodup_cons] at hnd
    dsimp only
    rw [List.zipIdx_cons, List.foldl_cons]
    obtain ⟨hbody, hemit, hstart⟩ := wordStarts present base fj (k + 1)
      (if present.getD s false then st.insert s (base + k / 8) else st) hnd.2
    refine ⟨hbody.trans ?_, hemit.trans ?_, hstart.trans ?_⟩
    · split <;> rfl
    · split <;> rfl
    · by_cases hs : s = fj
      · subst hs
        rw [if_neg (fun h => hnd.1 h.1)]
        by_cases hp : present.getD s false = true
        · rw [if_pos hp, if_pos ⟨List.mem_cons_self, hp⟩, SparseBody.start?_insert, if_pos rfl, List.idxOf_cons_self,
            Nat.add_zero]
        · rw [if_neg hp, if_neg (fun h => hp h.2)]
      · have hmem : fj ∈ s :: slots ↔ fj ∈ slots := by
          rw [List.mem_cons]
          exact ⟨fun h => h.resolve_left (Ne.symm hs), Or.inr⟩
        have hidx : k + 1 + slots.idxOf fj = k + (s :: slots).idxOf fj := by
          rw [List.idxOf_cons_ne _ hs]
          omega
        have hst : (if present.getD s false = true then st.insert s (base + k / 8) else st).start? fj = st.start? fj := by
          split
          · rw [SparseBody.start?_insert, if_neg hs]
          · rfl
        rw [hidx, hst]
        by_cases hin : fj ∈ slots ∧ present.getD fj false = true
        · rw [if_pos hin, if_pos ⟨hmem.mpr hin.1, hin.2⟩]
        · rw [if_neg hin, if_neg (fun h => hin ⟨hmem.mp h.1, h.2⟩)]

section

variable {cells : List (ℕ × CompactCell)} {present : List Bool} {sch : ExtendedSchema} {plan : RowCellPlan} {st st' : SparseBody}

theorem slotBytes_packed {fi : ℕ} (h : plan.isPacked fi = true) {body : Bytes} :
    emitBoolWord body (fun bs => present.getD bs false && cellAt cells bs == some (.bool true)) plan =
      (padTo plan.boolWordBytes body ++ ·) <$> slotBytes cells present sch plan fi := by
  rw [emitBoolWord, slotBytes, if_pos h]
  rfl

/-- What one slot adds: nothing where it is absent or its bit is in the word that is out already, and
otherwise its value at its place, with the starts that are noted. -/
theorem sparseStep_cases (hnd : plan.boolSlots.Nodup) {fi : ℕ} (h : sparseStep cells present sch plan st fi = .ok st') :
    (¬ (present.getD fi false = true ∧ (plan.isPacked fi = true → st.boolWordEmitted = false)) ∧ st' = st) ∨
    (present.getD fi false = true ∧ (plan.isPacked fi = true → st.boolWordEmitted = false) ∧
      st'.boolWordEmitted = (st.boolWordEmitted || plan.isPacked fi) ∧
      (∃ bytes, slotBytes cells present sch plan fi = .ok bytes ∧
        st'.body = st.body ++ zeros (slotPlace cells sch plan st.body.length fi - st.body.length) ++ bytes) ∧
      st'.start? fi = some (slotStart sch plan st.body.length fi) ∧
      ∀ fj, (plan.isPacked fi = true → plan.isPacked fj = false) → fi ≠ fj → st'.start? fj = st.start? fj) := by
  rw [sparseStep] at h
  by_cases hpres : present.getD fi false = true
  · rw [if_neg (by rw [hpres]; exact Bool.true_eq_false.mp)] at h
    by_cases hpacked : plan.isPacked fi = true
    · rw [if_pos hpacked] at h
      cases hemit : st.boolWordEmitted with
      | true =>
        rw [if_pos hemit] at h
        cases h
        exact Or.inl ⟨fun hno => Bool.noConfusion (hno.2 hpacked), rfl⟩
      | false =>
        rw [if_neg (by rw [hemit]; exact Bool.false_ne_true)] at h
        dsimp only at h
        have hstarts := fun fj => wordStarts present st.body.length fj 0 (st.insert fi st.body.length) hnd
        dsimp only at hstarts
        have hmem := (isPacked_eq_true.mp hpacked).2
        obtain ⟨body, hbody, h⟩ := bind_eq_ok.mp h
        cases h
        rw [(hstarts fi).1, SparseBody.insert_body, slotBytes_packed hpacked, map_eq_ok] at hbody
        obtain ⟨bytes, hbytes, rfl⟩ := hbody
        refine Or.inr ⟨hpres, fun _ => rfl, ?_, ⟨bytes, hbytes, ?_⟩, ?_, ?_⟩
        · rw [hpacked]
          rfl
        · rw [slotPlace, if_pos hpacked, Nat.add_sub_cancel_left]
          rfl
        · rw [slotStart, if_pos hpacked]
          refine (hstarts fi).2.2.trans ?_
          rw [if_pos ⟨hmem, hpres⟩, Nat.zero_add]
        · intro fj hother hne
          have hfj : fj ∉ plan.boolSlots := fun hin =>
            Bool.noConfusion ((hother hpacked).symm.trans (isPacked_eq_true.mpr ⟨(isPacked_eq_true.mp hpacked).1, hin⟩))
          refine (hstarts fj).2.2.trans ?_
          rw [if_neg (fun hin => hfj hin.1), SparseBody.start?_insert, if_neg hne]
    · rw [if_neg hpacked] at h
      obtain ⟨cell, hcell, h⟩ := bind_eq_ok.mp h
      obtain ⟨body, hbody, h⟩ := bind_eq_ok.mp h
      cases h
      obtain ⟨bytes, hbytes, rfl⟩ := appendCell_eq_ok.mp hbody
      refine Or.inr ⟨hpres, fun hno => absurd hno hpacked, ?_, ⟨bytes, ?_, ?_⟩, ?_, ?_⟩
      · rw [Bool.eq_false_of_not_eq_true hpacked, Bool.or_false]
        rfl
      · rw [slotBytes, if_neg hpacked, hcell, ok_bind, hbytes]
      · have hsome : cellAt cells fi = some cell := ofOption_eq_ok.mp (expect_eq_ok.mp hcell)
        have hroom : ∀ a b c : ℕ, a + b + c - a = b + c := fun a b c => by omega
        rw [slotPlace, if_neg hpacked, hsome, Option.map_some, Option.getD_some, paddedStart, padTo, List.length_append,
          zeros_length, List.append_assoc st.body, zeros_append, hroom]
      · rw [slotStart, if_neg hpacked]
        exact (SparseBody.start?_insert st fi _ fi).trans (if_pos rfl)
      · intro fj _ hne
        exact (SparseBody.start?_insert st fi _ fj).trans (if_neg hne)
  · rw [if_pos (Bool.eq_false_of_not_eq_true hpres)] at h
    cases h
    exact Or.inl ⟨fun hno => hpres hno.1, rfl⟩

theorem sparsePrefix_succ (m : ℕ) : sparsePrefix cells present sch plan (m + 1) =
    sparsePrefix cells present sch plan m >>= fun st => sparseStep cells present sch plan st m := by
  rw [sparsePrefix, List.range_succ, List.foldlM_append]
  simp only [List.foldlM_cons, List.foldlM_nil, bind_pure]
  rfl

/-- What holds of the sparse body of the slots below `m`: the word is out if one of the slots has its bit in it,
and the values of the slots with an entry of their own are at their places. -/
structure SparseRun (cells : List (ℕ × CompactCell)) (present : List Bool) (sch : ExtendedSchema) (plan : RowCellPlan) (m : ℕ)
    (st : SparseBody) : Prop where
  emitted : st.boolWordEmitted = true ↔ ∃ f < m, present.getD f false = true ∧ plan.isPacked f = true
  value_at : ∀ fi < m, Leads present plan fi → ∃ stf, sparsePrefix cells present sch plan fi = .ok stf ∧
    st.start? fi = some (slotStart sch plan stf.body.length fi) ∧
    ∃ bytes, slotBytes cells present sch plan fi = .ok bytes ∧ At st.body (slotPlace cells sch plan stf.body.length fi) bytes

theorem le_slotPlace (bodyLen fi : ℕ) : bodyLen ≤ slotPlace cells sch plan bodyLen fi := by
  rw [slotPlace]
  split
  · exact Nat.le_add_right _ _
  · exact Nat.le_trans (Nat.le_add_right _ _) (Nat.le_add_right _ _)

theorem sparsePrefix_run (hnd : plan.boolSlots.Nodup) : ∀ {m : ℕ} {st : SparseBody},
    sparsePrefix cells present sch plan m = .ok st → SparseRun cells present sch plan m st
  | 0, st, h => by
    cases h
    refine ⟨⟨fun hno => Bool.noConfusion hno, ?_⟩, ?_⟩
    · rintro ⟨f, hf, -⟩
      exact absurd hf (Nat.not_lt_zero f)
    · intro fi hfi
      exact absurd hfi (Nat.not_lt_zero fi)
  | m + 1, st', h => by
    rw [sparsePrefix_succ] at h
    obtain ⟨st, hst, hstep⟩ := bind_eq_ok.mp h
    have ih := sparsePrefix_run hnd hst
    have hcases : ∀ fi, fi < m + 1 → fi = m ∨ fi < m := fun fi hfi => by omega
    rcases sparseStep_cases hnd hstep with ⟨hskip, rfl⟩ | ⟨hpres, hfirst, hemit, ⟨bytes, hbytes, hbody⟩, hstart, hkeep⟩
    · refine ⟨ih.emitted.trans ⟨?_, ?_⟩, ?_⟩
      · rintro ⟨f, hf, hf'⟩
        exact ⟨f, Nat.lt_succ_of_lt hf, hf'⟩
      · rintro ⟨f, hf, hf', hpacked⟩
        rcases hcases f hf with rfl | hlt
        · by_contra hno
          refine hskip ⟨hf', fun _ => Bool.eq_false_of_not_eq_true fun hemit => hno ?_⟩
          exact ih.emitted.mp hemit
        · exact ⟨f, hlt, hf', hpacked⟩
      · intro fi hfi hleads
        rcases hcases fi hfi with rfl | hlt
        · refine absurd ⟨hleads.1, fun hpacked => Bool.eq_false_of_not_eq_true fun hemit => ?_⟩ hskip
          obtain ⟨f, hf, hf', hpf⟩ := ih.emitted.mp hemit
          exact Bool.noConfusion ((hleads.2 hpacked f hf hf').symm.trans hpf)
        · exact ih.value_at fi hlt hleads
    · refine ⟨?_, ?_⟩
      · rw [hemit, Bool.or_eq_true, ih.emitted]
        constructor
        · rintro (⟨f, hf, hf'⟩ | hpacked)
          · exact ⟨f, Nat.lt_succ_of_lt hf, hf'⟩
          · exact ⟨m, Nat.lt_succ_self m, hpres, hpacked⟩
        · rintro ⟨f, hf, hf', hpacked⟩
          rcases hcases f hf with rfl | hlt
          · exact Or.inr hpacked
          · exact Or.inl ⟨f, hlt, hf', hpacked⟩
      · intro fi hfi hleads
        rcases hcases fi hfi with rfl | hlt
        · refine ⟨st, hst, hstart, bytes, hbytes, st.body ++ zeros (slotPlace cells sch plan st.body.length fi - st.body.length),
            [], ?_, ?_⟩
          · rw [hbody, List.append_nil]
          · rw [List.length_append, zeros_length, Nat.add_sub_cancel' (le_slotPlace _ _)]
        · obtain ⟨stf, hstf, hnoted, value, hvalue, hat⟩ := ih.value_at fi hlt hleads
          refine ⟨stf, hstf, ?_, value, hvalue, ?_⟩
          · rw [hkeep fi (fun hm => ?_) (Nat.ne_of_gt hlt), hnoted]
            refine Bool.eq_false_of_not_eq_true fun hpf => ?_
            have hout := ih.emitted.mpr ⟨fi, hlt, hleads.1, hpf⟩
            rw [hfirst hm] at hout
            cases hout
          · rw [hbody, List.append_assoc]
            exact hat.append_right _

theorem boolSlots_nodup (sch : ExtendedSchema) (flags : ℕ) : (RowCellPlan.new sch flags).boolSlots.Nodup := by
  have hslots : (RowCellPlan.new sch flags).boolSlots = sch.boolSlots := by
    rw [RowCellPlan.new]
    dsimp only
    split <;> rfl
  rw [hslots]
  exact List.nodup_range.filter _

/-- No cell starts in front of the end of the body. -/
theorem le_sparseCellBodyStart {bodyLen fi : ℕ} (h : bodyLen + 255 ≤ 2 ^ 64) : bodyLen ≤ sparseCellBodyStart bodyLen fi sch plan := by
  have hw := planWidth_le sch plan fi
  unfold sparseCellBodyStart
  dsimp only
  split
  · exact le_alignTo (by omega)
  split
  · exact le_alignTo (by omega)
  split
  · exact le_alignTo (by omega)
  split
  · exact Nat.le_refl _
  · exact le_alignTo (by omega)

/-- The word of more than 64 packed bools cannot be written. -/
theorem boolSlots_le_of_slotBytes {fi : ℕ} (hpacked : plan.isPacked fi = true) {bytes : Bytes}
    (h : slotBytes cells present sch plan fi = .ok bytes) : plan.boolSlots.length ≤ 64 := by
  rw [slotBytes, if_pos hpacked, range] at h
  split at h
  · rename_i hle
    obtain ⟨hon, hmem⟩ := isPacked_eq_true.mp hpacked
    have hne : plan.boolSlots.isEmpty = false := by
      rw [List.isEmpty_eq_false_iff]
      exact List.ne_nil_of_mem hmem
    rw [bitBytes_length, RowCellPlan.boolWordBytes, hon, hne] at hle
    have hle := hle.2
    rw [if_neg (by decide)] at hle
    omega
  · cases h

/-- The first present one of the packed bools is the one that leads. -/
theorem find_packed_iff (hon : plan.packedBools = true) {n fi : ℕ} :
    ((List.range n).filter fun i => present.getD i false).find? (fun f => plan.boolSlots.contains f) = some fi ↔
      fi < n ∧ Leads present plan fi ∧ plan.isPacked fi = true := by
  have hpacked : ∀ f, plan.isPacked f = plan.boolSlots.contains f := fun f => by
    rw [RowCellPlan.isPacked, hon, Bool.true_and]
  rw [List.find?_filter, List.find?_range_eq_some, Leads, ← hpacked]
  simp only [List.mem_range, decide_eq_true_eq, ← hpacked, Bool.not_eq_true', decide_eq_false_iff_not, not_and,
    Bool.not_eq_true]
  constructor
  · rintro ⟨⟨hp, hb⟩, hlt, hfirst⟩
    exact ⟨hlt, ⟨hp, fun _ f hf hfp => hfirst f hf hfp⟩, hb⟩
  · rintro ⟨hlt, ⟨hp, hfirst⟩, hb⟩
    exact ⟨⟨hp, hb⟩, hlt, fun f hf hfp => hfirst hb f hf hfp⟩

/-- The slots of the offset table are those with an entry of their own. -/
theorem mem_offsetTable {n fi : ℕ} :
    fi ∈ sparseOffsetTableSlots ((List.range n).filter fun i => present.getD i false) plan ↔ fi < n ∧ Leads present plan fi := by
  have hslot : ∀ {f : ℕ}, f ∈ (List.range n).filter (fun i => present.getD i false) ↔ f < n ∧ present.getD f false = true :=
    fun {f} => by rw [List.mem_filter, List.mem_range]
  rw [sparseOffsetTableSlots]
  by_cases hoff : plan.packedBools = false
  · have hno : plan.isPacked fi = false := by rw [RowCellPlan.isPacked, hoff, Bool.false_and]
    rw [if_pos hoff, hslot, Leads, hno]
    exact ⟨fun h => ⟨h.1, h.2, fun hp => Bool.noConfusion hp⟩, fun h => ⟨h.1, h.2.1⟩⟩
  · have hon := Bool.eq_true_of_not_eq_false hoff
    have hpacked : plan.isPacked fi = plan.boolSlots.contains fi := by rw [RowCellPlan.isPacked, hon, Bool.true_and]
    rw [if_neg hoff, List.mem_filter, hslot, Bool.or_eq_true, beq_iff_eq, find_packed_iff hon, ← hpacked, Bool.not_eq_true']
    constructor
    · rintro ⟨⟨hlt, hp⟩, hno | ⟨-, hleads, -⟩⟩
      · exact ⟨hlt, hp, fun hyes => Bool.noConfusion (hno.symm.trans hyes)⟩
      · exact ⟨hlt, hleads⟩
    · rintro ⟨hlt, hleads⟩
      refine ⟨⟨hlt, hleads.1⟩, ?_⟩
      cases hb : plan.isPacked fi with
      | false => exact Or.inl rfl
      | true => exact Or.inr ⟨hlt, hleads, rfl⟩

end

end Nyxis

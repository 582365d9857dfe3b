import Nyxis.Compact.DenseWalk

/-!
# Compact.DenseOffsets — the precomputed offsets of reordered dense records

With wire reordering the fixed cells stand in front of the strings, by descending width, and their offsets are
computed once for a schema (`precomputeDenseFixedOffsets`); only the strings are walked over (`denseVarWalk`).

* `precompute_eq`: the table holds what the walk over all cells finds.
* `denseVarWalk_eq`: the walk over the strings, which aligns no promoted string.
* `offsets_agree_iff`: table, walk and encoder agree on every slot exactly when the record fits.
-/

namespace Nyxis

open Lib Lib.Outcome

/-- The plan with the precomputed data removed. -/
def RowCellPlan.generic (plan : RowCellPlan) : RowCellPlan :=
  { plan with denseFixedBodyOffsets := none, denseVarBodyStart := none }

section

variable {cells : List (ℕ × CompactCell)} {sch : ExtendedSchema} {plan : RowCellPlan}

/-! ## The wire order -/

instance : Std.Total wireBefore := ⟨fun a b => by unfold wireBefore; omega⟩

instance : IsTrans (ℕ × ℕ) wireBefore := ⟨fun a b c => by unfold wireBefore; omega⟩

/-- A column of variable length holds strings. -/
theorem DenseRecord.sigil_of_var (h : DenseRecord cells sch plan) {fi : ℕ} (hfi : fi < sch.keys.length)
    (hvar : isVarSigil (sch.sigil fi) = true) : sch.sigil fi = SIGIL_STR := by
  have hkind := h.columns.kinds fi hfi
  simp only [List.mem_cons, List.not_mem_nil, or_false] at hkind
  rcases hkind with hk | hk | hk | hk | hk
  all_goals
    first
      | exact hk
      | (rw [hk] at hvar; exact absurd hvar (by decide))

theorem alignWidth_var (h : DenseRecord cells sch plan) {fi : ℕ} (hfi : fi < sch.keys.length)
    (hvar : isVarSigil (sch.sigil fi) = true) : denseCellAlignWidth fi sch plan = 0 := by
  rw [denseCellAlignWidth, h.planned.unpacked_of_var hfi hvar, if_neg Bool.false_ne_true]
  dsimp only
  rw [if_pos hvar]

/-- The cells stand by descending width; strings have none. -/
theorem denseReordered_pairwise (h : DenseRecord cells sch plan) : (denseReordered sch plan).Pairwise fun a b =>
    denseCellAlignWidth b sch plan ≤ denseCellAlignWidth a sch plan := by
  have hvars : ∀ {fi : ℕ}, fi ∈ (List.range sch.keys.length).filter (fun fi => isVarSigil (sch.sigil fi)) →
      denseCellAlignWidth fi sch plan = 0 := fun {fi} hfi => by
    obtain ⟨hlt, hvar⟩ := List.mem_filter.mp hfi
    exact alignWidth_var h (List.mem_range.mp hlt) hvar
  rw [denseReordered]
  refine List.pairwise_append.mpr ⟨?_, ?_, fun a _ b hb => ?_⟩
  · rw [List.pairwise_map]
    refine List.Pairwise.imp_of_mem ?_ (List.pairwise_insertionSort wireBefore _)
    intro a b ha hb hab
    obtain ⟨fa, -, rfl⟩ := List.mem_map.mp ((List.mem_insertionSort wireBefore).mp ha)
    obtain ⟨fb, -, rfl⟩ := List.mem_map.mp ((List.mem_insertionSort wireBefore).mp hb)
    rcases hab with hlt | ⟨heq, -⟩
    · exact Nat.le_of_lt hlt
    · exact Nat.le_of_eq heq.symm
  · exact List.Pairwise.imp_of_mem (fun {a b} _ hb _ => by rw [hvars hb]; exact Nat.zero_le _)
      (List.pairwise_lt_range.filter _)
  · rw [hvars hb]
    exact Nat.zero_le _

/-- A fixed cell of its own has its sorting width as alignment and length. -/
theorem fixed_align_size (h : DenseRecord cells sch plan) {fi : ℕ} (hfi : fi < sch.keys.length)
    (hvar : isVarSigil (sch.sigil fi) = false) : denseAlign cells sch plan fi = denseCellAlignWidth fi sch plan ∧
      denseSize cells sch plan fi = denseCellAlignWidth fi sch plan := by
  have hprom : sch.isPromoted fi = false := Bool.eq_false_of_not_eq_true fun hp => by
    rw [h.columns.promoted fi hp] at hvar
    exact absurd hvar (by decide)
  rw [denseAlign, denseSize, denseCellAlignWidth]
  cases h.cell hfi with
  | packed hpacked =>
    rw [if_pos hpacked, if_pos hpacked, if_pos hpacked]
    exact ⟨rfl, rfl⟩
  | number cell hpacked hcell halign hsize hsig =>
    have hkey : (sch.sigil fi == SIGIL_KEYWORD) = false := by
      rcases hsig with hk | hk <;> rw [hk] <;> decide
    rw [hpacked, if_neg Bool.false_ne_true, if_neg Bool.false_ne_true, if_neg Bool.false_ne_true, hcell]
    dsimp only [Option.map_some, Option.getD_some]
    rw [halign, hsize, hvar, if_neg Bool.false_ne_true, hprom, hkey, Bool.or_self, if_neg Bool.false_ne_true, if_pos hsig, planWidth]
    exact ⟨rfl, rfl⟩
  | eight cell hpacked hcell halign hsize hsig hbool =>
    have hwidth : (if isVarSigil (sch.sigil fi) = true then 0
        else if (sch.isPromoted fi || sch.sigil fi == SIGIL_KEYWORD) = true then 2
        else if sch.sigil fi = SIGIL_INT ∨ sch.sigil fi = SIGIL_FLOAT then if plan.narrow then sch.cellWidth fi else 8
        else if sch.sigil fi = SIGIL_TIME then 8
        else if sch.sigil fi = SIGIL_BOOL ∧ plan.packedBools = false then 8
        else if sch.sigil fi = SIGIL_NULL then 1
        else 8) = 8 := by
      rw [hprom]
      rcases hsig with hk | hk
      · rw [hk, if_neg (by decide), if_neg (by decide), if_neg (by decide), if_pos rfl]
      · rw [hk, if_neg (by decide), if_neg (by decide), if_neg (by decide), if_neg (by decide), if_pos ⟨rfl, hbool hk⟩]
    rw [hpacked, if_neg Bool.false_ne_true, if_neg Bool.false_ne_true, if_neg Bool.false_ne_true, hcell]
    dsimp only [Option.map_some, Option.getD_some]
    rw [halign, hsize, hwidth]
    exact ⟨rfl, rfl⟩
  | promoted s _ _ hsig =>
    rw [hsig] at hvar
    exact absurd hvar (by decide)
  | inline s _ _ hsig =>
    rw [hsig] at hvar
    exact absurd hvar (by decide)

/-- Cells whose alignments and lengths are multiples of `m` end at a multiple of `m`. -/
theorem densePos_dvd {m : ℕ} {order : List ℕ} (h : ∀ f ∈ order, 0 < denseAlign cells sch plan f ∧
    m ∣ denseAlign cells sch plan f ∧ m ∣ denseSize cells sch plan f) : m ∣ densePos cells sch plan order := by
  induction order using List.reverseRecOn with
  | nil => exact Nat.dvd_zero m
  | append_singleton order f ih =>
    obtain ⟨hpos, halign, hsize⟩ := h f (List.mem_append_right _ List.mem_cons_self)
    rw [densePos_append]
    exact Nat.dvd_add (Nat.dvd_trans halign (padLen_dvd hpos _)) hsize

theorem alignWidth_cases (h : DenseRecord cells sch plan) {fi : ℕ} (hfi : fi < sch.keys.length)
    (hpacked : plan.isPacked fi = false) (hvar : isVarSigil (sch.sigil fi) = false) :
    denseCellAlignWidth fi sch plan = 1 ∨ denseCellAlignWidth fi sch plan = 2 ∨ denseCellAlignWidth fi sch plan = 4 ∨
      denseCellAlignWidth fi sch plan = 8 := by
  rw [← (fixed_align_size h hfi hvar).2]
  cases h.cell hfi with
  | packed hp =>
    rw [hpacked] at hp
    cases hp
  | number cell _ hcell _ hsize _ =>
    rw [denseSize_of_cell hpacked hcell, hsize]
    exact h.columns.planWidth_cases plan fi
  | eight cell _ hcell _ hsize _ _ =>
    rw [denseSize_of_cell hpacked hcell, hsize]
    exact Or.inr (Or.inr (Or.inr rfl))
  | promoted s _ _ hsig =>
    rw [hsig] at hvar
    exact absurd hvar (by decide)
  | inline s _ _ hsig =>
    rw [hsig] at hvar
    exact absurd hvar (by decide)

/-- Every cell of the reordered wire is one that is held. -/
theorem heldOrder_reordered (h : Planned sch plan) (horder : plan.denseWireReorder = true) :
    heldOrder sch plan = denseReordered sch plan := by
  have hwire : denseWireOrder sch plan = denseReordered sch plan := by
    rw [denseWireOrder, horder, if_neg (fun hno => Bool.noConfusion hno)]
  rw [heldOrder, hwire, List.filter_eq_self]
  intro fi hfi
  rw [(denseReordered_perm sch plan).mem_iff, List.mem_append, List.mem_filter, List.mem_filter, List.mem_range] at hfi
  rcases hfi with ⟨-, hfixed⟩ | ⟨hlt, hvar⟩
  · rw [Bool.and_eq_true] at hfixed
    exact hfixed.2
  · rw [denseHeld, h.unpacked_of_var hlt hvar, Bool.not_false, Bool.true_or]

/-- The smallest power of two that a word of up to eight bytes fits into. -/
theorem exists_pow_of_word {bw : ℕ} (h1 : 1 ≤ bw) (h8 : bw ≤ 8) : ∃ k ≤ 3, bw ≤ 2 ^ k ∧
    ∀ w, w = 1 ∨ w = 2 ∨ w = 4 ∨ w = 8 → bw ≤ w → 2 ^ k ∣ w := by
  rcases Nat.lt_or_ge 4 bw with h4 | h4
  · exact ⟨3, by decide, by omega, by omega⟩
  rcases Nat.lt_or_ge 2 bw with h2 | h2
  · exact ⟨2, by decide, by omega, by omega⟩
  rcases Nat.lt_or_ge 1 bw with h1' | h1'
  · exact ⟨1, by decide, by omega, by omega⟩
  · exact ⟨0, by decide, by omega, by omega⟩

/-- In the reordered wire only the word of the packed bools can be placed differently: where its width does not
divide its position. -/
theorem placed_reordered (h : DenseRecord cells sch plan) (horder : plan.denseWireReorder = true)
    (hword : plan.packedBools = true → plan.boolSlots ≠ [] → plan.boolWordBytes ≤ 8) {pre rest : List ℕ} {fi : ℕ}
    (hsplit : heldOrder sch plan = pre ++ fi :: rest) (hsmall : densePos cells sch plan pre + 8 ≤ 2 ^ 64) :
    PlacedAlike sch plan (densePos cells sch plan pre) fi ↔
      (plan.isPacked fi = true → plan.boolWordBytes ∣ densePos cells sch plan pre) := by
  have hnd : (heldOrder sch plan).Nodup := denseWireOrder_nodup.filter _
  have hlt : ∀ f ∈ heldOrder sch plan, f < sch.keys.length := fun f hf => denseWireOrder_lt (List.mem_filter.mp hf).1
  have hheld : ∀ f ∈ heldOrder sch plan, denseHeld plan f = true := fun f hf => (List.mem_filter.mp hf).2
  have hsorted := denseReordered_pairwise h
  rw [← heldOrder_reordered h.planned horder, hsplit] at hsorted
  rw [hsplit] at hnd hlt hheld
  have hwidth : ∀ f ∈ pre, denseCellAlignWidth fi sch plan ≤ denseCellAlignWidth f sch plan := fun f hf =>
    (List.pairwise_append.mp hsorted).2.2 f hf fi List.mem_cons_self
  have hfi := hlt fi (List.mem_append_right _ List.mem_cons_self)
  -- what stands in front of a fixed cell is fixed
  have hfront : 0 < denseCellAlignWidth fi sch plan → ∀ f ∈ pre, isVarSigil (sch.sigil f) = false := fun hpos f hf =>
    Bool.eq_false_of_not_eq_true fun hvar => by
      have := hwidth f hf
      rw [alignWidth_var h (hlt f (List.mem_append_left _ hf)) hvar] at this
      omega
  rw [PlacedAlike]
  by_cases hpacked : plan.isPacked fi = true
  · rw [if_pos hpacked]
    obtain ⟨hon, hmem⟩ := isPacked_eq_true.mp hpacked
    have h8 := hword hon (List.ne_nil_of_mem hmem)
    have h1 : 1 ≤ plan.boolWordBytes := Nat.lt_of_le_of_lt (Nat.zero_le _) (holderByte_lt hpacked)
    have hW : denseCellAlignWidth fi sch plan = plan.boolWordBytes := by rw [denseCellAlignWidth, if_pos hpacked]
    obtain ⟨k, hk, hle, hdvd⟩ := exists_pow_of_word h1 h8
    have hpos : 2 ^ k ∣ densePos cells sch plan pre := by
      refine densePos_dvd fun f hf => ?_
      have hflt := hlt f (List.mem_append_left _ hf)
      have hvar := hfront (by omega) f hf
      have hunpacked : plan.isPacked f = false := Bool.eq_false_of_not_eq_true fun hfp => by
        have hf1 := hheld f (List.mem_append_left _ hf)
        have hfi1 := hheld fi (List.mem_append_right _ List.mem_cons_self)
        rw [denseHeld, hfp, Bool.not_true, Bool.false_or, beq_iff_eq] at hf1
        rw [denseHeld, hpacked, Bool.not_true, Bool.false_or, beq_iff_eq, hf1] at hfi1
        exact (List.nodup_append.mp hnd).2.2 f hf fi List.mem_cons_self (Option.some.inj hfi1)
      have hcases := alignWidth_cases h hflt hunpacked hvar
      have hfd := hdvd _ hcases (by have := hwidth f hf; omega)
      rw [(fixed_align_size h hflt hvar).1, (fixed_align_size h hflt hvar).2]
      exact ⟨by omega, hfd, hfd⟩
    rw [alignTo_of_dvd hpos hle (by omega) (by omega)]
    constructor
    · intro heq _
      have := padLen_dvd h1 (densePos cells sch plan pre)
      rwa [← heq] at this
    · intro hdvd'
      rw [padLen_of_dvd (hdvd' hpacked), Nat.add_zero]
  · rw [if_neg hpacked]
    refine ⟨fun _ hno => absurd hno hpacked, fun _ hsig => ?_⟩
    have hvar : isVarSigil (sch.sigil fi) = false := by
      rcases hsig with hk | hk <;> rw [hk] <;> decide
    have hW : denseCellAlignWidth fi sch plan = 8 := by
      rw [← (fixed_align_size h hfi hvar).2]
      cases h.cell hfi with
      | packed hp => exact absurd hp hpacked
      | number cell _ _ _ _ hno =>
        rcases hsig with hk | hk <;> rw [hk] at hno <;> exact absurd hno (by decide)
      | eight cell hunpacked hcell _ hsize _ _ => rw [denseSize_of_cell hunpacked hcell, hsize]
      | promoted s _ _ hno => rw [hno] at hvar; exact absurd hvar (by decide)
      | inline s _ _ hno => rw [hno] at hvar; exact absurd hvar (by decide)
    have hpos : 8 ∣ densePos cells sch plan pre := by
      refine densePos_dvd fun f hf => ?_
      have hflt := hlt f (List.mem_append_left _ hf)
      have hfvar := hfront (by omega) f hf
      have hle8 : denseCellAlignWidth f sch plan ≤ 8 := by
        by_cases hfp : plan.isPacked f = true
        · obtain ⟨hon, hmem⟩ := isPacked_eq_true.mp hfp
          rw [denseCellAlignWidth, if_pos hfp]
          exact hword hon (List.ne_nil_of_mem hmem)
        · have := alignWidth_cases h hflt (Bool.eq_false_of_not_eq_true hfp) hfvar
          omega
      have hge := hwidth f hf
      have heq : denseCellAlignWidth f sch plan = 8 := by omega
      rw [(fixed_align_size h hflt hfvar).1, (fixed_align_size h hflt hfvar).2, heq]
      exact ⟨by decide, Nat.dvd_refl 8, Nat.dvd_refl 8⟩
    have hw := h.columns.planWidth_cases plan fi
    have hdvdw : planWidth sch plan fi ∣ densePos cells sch plan pre :=
      Nat.dvd_trans (by rcases hw with hk | hk | hk | hk <;> rw [hk] <;> decide) hpos
    rw [alignTo_width hw hsmall, padLen_of_dvd hdvdw, padLen_of_dvd hpos]

/-! ## The table of the fixed cells -/

/-- The walk past a fixed cell, which reads nothing. -/
def fixedStep (sch : ExtendedSchema) (plan : RowCellPlan) (pos fi : ℕ) : ℕ :=
  if plan.isPacked fi then (if some fi = plan.firstBool then advancePastBoolWord pos plan else pos)
  else advanceDensePastCellFixed pos fi sch plan

theorem walkStep_fixed {d : Bytes} {bodyBase pos fi : ℕ} (hvar : isVarSigil (sch.sigil fi) = false) :
    walkStep sch plan d bodyBase pos fi = .ok (fixedStep sch plan pos fi) := by
  rw [walkStep, fixedStep]
  by_cases hpacked : plan.isPacked fi = true
  · rw [if_pos hpacked, if_pos hpacked]
  · rw [if_neg hpacked, if_neg hpacked, advanceDensePastCell, advanceDensePastCellFixed]
    dsimp only
    rw [if_neg hpacked, if_neg hpacked, hvar, if_neg Bool.false_ne_true]
    split
    · rfl
    split <;> rfl

theorem walk_fixed {d : Bytes} {bodyBase : ℕ} : ∀ {order : List ℕ} {pos : ℕ}, (∀ fi ∈ order, isVarSigil (sch.sigil fi) = false) →
    order.foldlM (walkStep sch plan d bodyBase) pos = .ok (order.foldl (fixedStep sch plan) pos)
  | [], _, _ => rfl
  | fi :: order, pos, h => by
    rw [List.foldlM_cons, walkStep_fixed (h fi List.mem_cons_self), ok_bind]
    exact walk_fixed fun f hf => h f (List.mem_cons_of_mem _ hf)

/-- The entries that are set with the word of the packed bools. -/
theorem wordEntries (base s : ℕ) : ∀ {slots : List ℕ} (k : ℕ) (out : List (Option ℕ)), slots.Nodup → s < out.length →
    let out' := (slots.zipIdx k).foldl (fun out b => out.set b.1 (some (base + b.2 / 8))) out
    out'.length = out.length ∧ out'[s]? = if s ∈ slots then some (some (base + (k + slots.idxOf s) / 8)) else out[s]?
  | [], k, out, _, _ => ⟨rfl, (if_neg List.not_mem_nil).symm⟩
  | a :: slots, k, out, hnd, hs => by
    rw [List.nodup_cons] at hnd
    dsimp only
    rw [List.zipIdx_cons, List.foldl_cons]
    obtain ⟨hlen, hget⟩ := wordEntries base s (k + 1) (out.set a (some (base + k / 8))) hnd.2 (by rw [List.length_set]; exact hs)
    refine ⟨hlen.trans List.length_set, hget.trans ?_⟩
    by_cases ha : a = s
    · subst ha
      rw [if_neg hnd.1, if_pos List.mem_cons_self, List.getElem?_set_self hs, List.idxOf_cons_self, Nat.add_zero]
    · have hmem : s ∈ a :: slots ↔ s ∈ slots := by
        rw [List.mem_cons]
        exact ⟨fun hin => hin.resolve_left (Ne.symm ha), Or.inr⟩
      have hidx : k + 1 + slots.idxOf s = k + (a :: slots).idxOf s := by
        rw [List.idxOf_cons_ne _ ha]
        omega
      rw [List.getElem?_set_ne ha, hidx]
      by_cases hin : s ∈ slots
      · rw [if_pos hin, if_pos (hmem.mpr hin)]
      · rw [if_neg hin, if_neg (fun hno => hin (hmem.mp hno))]

/-- The table holds, for every slot with its value in a fixed cell, what the walk past the cells in front of that
cell finds; the strings start where the fixed cells end. -/
theorem precompute_eq (hfirst : plan.firstBool = plan.boolSlots.head?) (hnd : plan.boolSlots.Nodup) {vars : List ℕ}
    (hvars : ∀ v ∈ vars, plan.isPacked v = false ∧ isVarSigil (sch.sigil v) = true) :
    ∀ {fixed : List ℕ} {pos : ℕ} {out : List (Option ℕ)},
      (∀ f ∈ fixed, denseHeld plan f = true ∧ isVarSigil (sch.sigil f) = false) → fixed.Nodup →
      ∃ out', precomputeLoop sch plan (fixed ++ vars) pos out =
          (out', if vars.isEmpty then none else some (fixed.foldl (fixedStep sch plan) pos)) ∧
        ∀ slot < out.length, (denseHolder plan slot ∉ fixed → out'[slot]? = out[slot]?) ∧
          ∀ pre rest, fixed = pre ++ denseHolder plan slot :: rest →
            out'[slot]? = some (some (walkPlace sch plan (pre.foldl (fixedStep sch plan) pos) (denseHolder plan slot) +
              holderByte plan slot))
  | [], pos, out, _, _ => by
    refine ⟨out, ?_, fun slot _ => ⟨fun _ => rfl, fun pre rest hno => absurd hno.symm (by simp)⟩⟩
    cases vars with
    | nil => rfl
    | cons v vars =>
      obtain ⟨hpacked, hvar⟩ := hvars v List.mem_cons_self
      rw [List.nil_append, precomputeLoop, hpacked, if_neg Bool.false_ne_true]
      dsimp only
      rw [if_pos hvar]
      rfl
  | fi :: fixed, pos, out, hfixed, hnodup => by
    obtain ⟨hheld, hvar⟩ := hfixed fi List.mem_cons_self
    rw [List.nodup_cons] at hnodup
    -- the entries that this cell sets
    have hset : ∃ out₁, out₁.length = out.length ∧
        precomputeLoop sch plan (fi :: fixed ++ vars) pos out = precomputeLoop sch plan (fixed ++ vars) (fixedStep sch plan pos fi) out₁ ∧
        ∀ slot < out.length, out₁[slot]? =
          if denseHolder plan slot = fi then some (some (walkPlace sch plan pos fi + holderByte plan slot)) else out[slot]? := by
      by_cases hpacked : plan.isPacked fi = true
      · have hsome : some fi = plan.firstBool := by
          rw [denseHeld, hpacked, Bool.not_true, Bool.false_or, beq_iff_eq] at hheld
          exact hheld.symm
        refine ⟨plan.boolSlots.zipIdx.foldl (fun out b => out.set b.1 (some (alignTo pos plan.boolWordBytes + b.2 / 8))) out, ?_, ?_, ?_⟩
        · rcases Nat.eq_zero_or_pos out.length with h0 | h0
          · have hlength : ∀ (l : List (ℕ × ℕ)) (out : List (Option ℕ)),
                (l.foldl (fun out b => out.set b.1 (some (alignTo pos plan.boolWordBytes + b.2 / 8))) out).length = out.length := by
              intro l
              induction l with
              | nil => exact fun _ => rfl
              | cons b l ih => exact fun out => (ih _).trans List.length_set
            exact hlength _ out
          · exact (wordEntries _ 0 0 out hnd h0).1
        · rw [List.cons_append, precomputeLoop, if_pos hpacked, if_pos hsome, fixedStep, if_pos hpacked, if_pos hsome]
          rfl
        · intro slot hslot
          rw [(wordEntries _ slot 0 out hnd hslot).2, Nat.zero_add]
          have hiff : slot ∈ plan.boolSlots ↔ denseHolder plan slot = fi := by
            constructor
            · intro hin
              have hsp : plan.isPacked slot = true := isPacked_eq_true.mpr ⟨(isPacked_eq_true.mp hpacked).1, hin⟩
              have := (holder_of_packed hfirst hsp).1
              rw [← hsome] at this
              exact (Option.some.inj this).symm
            · intro heq
              by_contra hno
              have hsp : plan.isPacked slot = false :=
                Bool.eq_false_of_not_eq_true fun hp => hno (isPacked_eq_true.mp hp).2
              rw [(holder_of_unpacked hsp).1] at heq
              rw [heq, hpacked] at hsp
              cases hsp
          by_cases hin : slot ∈ plan.boolSlots
          · have hsp : plan.isPacked slot = true := isPacked_eq_true.mpr ⟨(isPacked_eq_true.mp hpacked).1, hin⟩
            rw [if_pos hin, if_pos (hiff.mp hin), walkPlace, if_pos hpacked, holderByte, if_pos hsp]
          · rw [if_neg hin, if_neg (fun heq => hin (hiff.mpr heq))]
      · have hoff : plan.isPacked fi = false := Bool.eq_false_of_not_eq_true hpacked
        refine ⟨out.set fi (some (walkPlace sch plan pos fi)), List.length_set, ?_, ?_⟩
        · rw [List.cons_append, precomputeLoop, if_neg hpacked, fixedStep, if_neg hpacked, walkPlace, if_neg hpacked]
          dsimp only
          rw [hvar, if_neg Bool.false_ne_true, if_neg Bool.false_ne_true]
        · intro slot hslot
          by_cases heq : denseHolder plan slot = fi
          · have hself : slot = fi ∧ holderByte plan slot = 0 := by
              cases hsp : plan.isPacked slot with
              | true =>
                have := (holder_of_packed hfirst hsp).2
                rw [heq, hoff] at this
                cases this
              | false =>
                obtain ⟨hself, hbyte⟩ := holder_of_unpacked hsp
                exact ⟨hself.symm.trans heq, hbyte⟩
            rw [if_pos heq, hself.2, Nat.add_zero, hself.1, List.getElem?_set_self (hself.1 ▸ hslot)]
          · have hne : fi ≠ slot := fun hno => heq (by
              rw [← hno, (holder_of_unpacked hoff).1])
            rw [if_neg heq, List.getElem?_set_ne hne]
    obtain ⟨out₁, hlen, hloop, hentry⟩ := hset
    obtain ⟨out', hrest, hout⟩ : ∃ out', precomputeLoop sch plan (fixed ++ vars) (fixedStep sch plan pos fi) out₁ = _ ∧ _ :=
      precompute_eq hfirst hnd hvars (fun f hf => hfixed f (List.mem_cons_of_mem _ hf)) hnodup.2
    refine ⟨out', hloop.trans hrest, fun slot hslot => ?_⟩
    obtain ⟨hkeep, hfound⟩ := hout slot (by omega)
    constructor
    · intro hno
      rw [hkeep (fun hin => hno (List.mem_cons_of_mem _ hin)), hentry slot hslot,
        if_neg (fun hin : denseHolder plan slot = fi => hno (hin ▸ List.mem_cons_self))]
    · intro pre rest hsplit
      cases pre with
      | nil =>
        rw [List.nil_append, List.cons.injEq] at hsplit
        rw [hkeep (hsplit.1 ▸ hnodup.1), hentry slot hslot, if_pos hsplit.1.symm, hsplit.1]
        rfl
      | cons f pre =>
        rw [List.cons_append, List.cons.injEq] at hsplit
        rw [hfound pre rest hsplit.2, hsplit.1]
        rfl

/-! ## The walk over the strings -/

theorem denseVarWalk_eq {d : Bytes} {bodyBase slot : ℕ} : ∀ {order pre rest : List ℕ} {pos : ℕ},
    order.filter (fun fi => isVarSigil (sch.sigil fi)) = pre ++ slot :: rest → slot ∉ pre →
    denseVarWalk d bodyBase slot sch plan order pos = (do
      let pos ← pre.foldlM (fun pos fi => advanceDensePastCell d bodyBase pos fi sch plan) pos
      let off ← usizeAdd bodyBase pos
      .ok (some off))
  | [], pre, rest, pos, h, _ => absurd h.symm (by simp)
  | fi :: order, pre, rest, pos, h, hpre => by
    rw [denseVarWalk]
    cases hvar : isVarSigil (sch.sigil fi) with
    | false =>
      have hfilter : (fi :: order).filter (fun fi => isVarSigil (sch.sigil fi)) = order.filter fun fi => isVarSigil (sch.sigil fi) :=
        List.filter_cons_of_neg (by rw [hvar]; exact Bool.false_ne_true)
      rw [hfilter] at h
      rw [if_pos rfl]
      exact denseVarWalk_eq h hpre
    | true =>
      have hfilter : (fi :: order).filter (fun fi => isVarSigil (sch.sigil fi)) =
          fi :: order.filter fun fi => isVarSigil (sch.sigil fi) := List.filter_cons_of_pos hvar
      rw [hfilter] at h
      rw [if_neg (fun hno => Bool.noConfusion hno)]
      cases pre with
      | nil =>
        rw [List.nil_append, List.cons.injEq] at h
        rw [if_pos h.1, List.foldlM_nil, pure_eq, ok_bind]
      | cons f pre =>
        rw [List.cons_append, List.cons.injEq] at h
        obtain ⟨rfl, h⟩ := h
        rw [if_neg (fun hin : fi = slot => hpre (hin ▸ List.mem_cons_self)), List.foldlM_cons, bind_assoc]
        exact bind_congr fun pos' => denseVarWalk_eq h fun hin => hpre (List.mem_cons_of_mem _ hin)

/-- In front of a string a walk that finds every cell stands where the encoder stood. -/
theorem walk_of_string (h : DenseRecord cells sch plan) {d body : Bytes} {bodyBase : ℕ}
    (hbody : DenseBodyAt cells sch plan d bodyBase (heldOrder sch plan) body) (halike : WalkedAlike cells sch plan (heldOrder sch plan))
    {pre rest : List ℕ} {fi : ℕ} (hsplit : heldOrder sch plan = pre ++ fi :: rest) (hsig : sch.sigil fi = SIGIL_STR) :
    pre.foldlM (walkStep sch plan d bodyBase) 0 = .ok (densePos cells sch plan pre) := by
  cases pre using List.reverseRecOn with
  | nil => rfl
  | append_singleton pre f =>
    have hsplit' : heldOrder sch plan = pre ++ f :: fi :: rest := by
      rw [hsplit, List.append_assoc]
      rfl
    have hmem : f ∈ heldOrder sch plan := hsplit' ▸ List.mem_append_right _ List.mem_cons_self
    obtain ⟨walk, hwalk, hf⟩ := (foundBehind_iff h hbody).mpr halike _ _ _ hsplit'
    obtain ⟨-, -, bytes, hbytes, hat⟩ := denseFold_at (hsplit' ▸ hbody.held) (hsplit' ▸ hbody.encoded)
    obtain ⟨walk', hstep, hcases⟩ := walkStep_found h hbody.small (hbody.slots f hmem) (hbody.held f hmem) hf hbytes
      (hbody.placed.trans hat)
    have hpassed := halike.passed _ _ _ _ hsplit'
    rw [List.foldlM_append, hwalk, ok_bind, List.foldlM_cons, hstep, ok_bind, List.foldlM_nil, pure_eq, densePos_append]
    rcases hcases with ⟨hstop, -, -⟩ | ⟨hnarrow, -⟩ | ⟨hlong, -⟩
    · rw [hstop]
    · exact absurd hsig (hpassed.1 hnarrow).1
    · exact absurd hlong hpassed.2

end

/-! ## Table, walk and encoder -/

section

variable (d : Bytes) (offset : ℕ) (cells : List (ℕ × CompactCell)) (sch : ExtendedSchema) (plan : RowCellPlan)

/-- The plan, the plan without its precomputed data and the encoder agree on the position of every slot of the
record at `offset`. -/
def OffsetsAgree : Prop :=
  ∀ slot < sch.keys.length, ∃ p, densePlace cells sch plan slot = .ok p ∧
    denseFieldOffset d offset slot sch plan = .ok (some (offset + 9 + p)) ∧
    denseFieldOffset d offset slot sch plan.generic = .ok (some (offset + 9 + p))

/-- The position in the body behind the cells that stand in front of a slot's cell on the wire. -/
def wirePos (fi : ℕ) : ℕ := densePos cells sch plan ((denseWireOrder sch plan).takeWhile (· != fi))

/-- What makes the three agree. -/
structure WireFits : Prop where
  /-- The width of the word of the packed bools divides its position. -/
  word : plan.packedBools = true → ∀ first, plan.firstBool = some first → plan.boolWordBytes ∣ wirePos cells sch plan first
  /-- An unpacked bool of a narrow width stands last, or in front of a fixed cell of eight bytes. -/
  narrow : ∀ pre fi next rest, denseWireOrder sch plan = pre ++ fi :: next :: rest → NarrowBool sch plan fi →
    sch.sigil next ≠ SIGIL_STR ∧ planWidth sch plan next = 8
  /-- A promoted string stands at an even position. -/
  promoted : ∀ fi < sch.keys.length, sch.isPromoted fi = true → 2 ∣ wirePos cells sch plan fi
  /-- An inline string whose length does not fit its prefix stands last. -/
  long : ∀ pre fi next rest, denseWireOrder sch plan = pre ++ fi :: next :: rest → ¬ LongString cells sch fi

end

/-- The plan with the table of its fixed cells. -/
def RowCellPlan.tabled (sch : ExtendedSchema) (plan : RowCellPlan) : RowCellPlan :=
  { plan with
    denseFixedBodyOffsets := some (precomputeDenseFixedOffsets sch plan).1
    denseVarBodyStart := (precomputeDenseFixedOffsets sch plan).2 }

section

variable {cells : List (ℕ × CompactCell)} {sch : ExtendedSchema} {plan : RowCellPlan}

theorem new_reordered {flags : ℕ} (hflags : hasFlag flags FLAG_DENSE_FRAMES = true ∧ hasFlag flags FLAG_DENSE_WIRE_REORDER = true) :
    RowCellPlan.new sch flags = (RowCellPlan.bare sch flags).tabled sch := by
  rw [RowCellPlan.new]
  dsimp only
  have hon : ((RowCellPlan.bare sch flags).denseWireReorder && (RowCellPlan.bare sch flags).denseAllowed) = true := by
    rw [show (RowCellPlan.bare sch flags).denseWireReorder = true from hflags.2, Bool.true_and]
    exact hflags.1
  rw [if_pos hon]
  rfl

/-- The fixed cells of the reordered wire, and the strings behind them. -/
theorem wire_parts (h : Planned sch plan) (horder : plan.denseWireReorder = true) :
    ∃ fixed vars : List ℕ, denseWireOrder sch plan = fixed ++ vars ∧
      (∀ f ∈ fixed, denseHeld plan f = true ∧ isVarSigil (sch.sigil f) = false) ∧
      (∀ v ∈ vars, plan.isPacked v = false ∧ isVarSigil (sch.sigil v) = true) := by
  have hwire : denseWireOrder sch plan = denseReordered sch plan := by
    rw [denseWireOrder, horder, if_neg (fun hno => Bool.noConfusion hno)]
  refine ⟨_, _, hwire, fun f hf => ?_, fun v hv => ?_⟩
  · obtain ⟨b, hb, rfl⟩ := List.mem_map.mp hf
    obtain ⟨f, hin, rfl⟩ := List.mem_map.mp ((List.mem_insertionSort wireBefore).mp hb)
    have hfixed := (List.mem_filter.mp hin).2
    rw [Bool.and_eq_true, Bool.not_eq_true'] at hfixed
    exact ⟨hfixed.2, hfixed.1⟩
  · obtain ⟨hlt, hvar⟩ := List.mem_filter.mp hv
    exact ⟨h.unpacked_of_var (List.mem_range.mp hlt) hvar, hvar⟩

/-- For a slot in a fixed cell the table has what the walk over all cells finds; for a string the walk over the strings
returns the position in front of it as it is. -/
theorem denseFieldOffset_tabled (h : Planned sch plan) (horder : plan.denseWireReorder = true) {d : Bytes}
    {offset slot : ℕ} {pre rest : List ℕ} (hslot : slot < sch.keys.length)
    (hsplit : denseWireOrder sch plan = pre ++ denseHolder plan slot :: rest) :
    denseFieldOffset d offset slot sch (plan.tabled sch) = (do
      let bodyBase ← usizeAdd offset 9
      let pos ← pre.foldlM (walkStep sch plan d bodyBase) 0
      let off ← usizeAdd bodyBase (if isVarSigil (sch.sigil (denseHolder plan slot)) then pos
        else walkPlace sch plan pos (denseHolder plan slot) + holderByte plan slot)
      .ok (some off)) := by
  obtain ⟨fixed, vars, hparts, hfixed, hvars⟩ := wire_parts h horder
  have hnd : (fixed ++ vars).Nodup := hparts ▸ denseWireOrder_nodup
  obtain ⟨hndFixed, hndVars, hdisjoint⟩ := List.nodup_append.mp hnd
  have hslots : plan.boolSlots.Nodup := by
    rw [h.plan_of.boolSlots]
    exact List.nodup_range.filter _
  obtain ⟨table, htable, hentry⟩ : ∃ out', precomputeLoop sch plan (fixed ++ vars) 0 (List.replicate sch.keys.length none) = _ ∧ _ :=
    precompute_eq h.plan_of.firstBool hslots hvars hfixed hndFixed
  obtain ⟨hkeep, hfound⟩ := hentry slot (by rw [List.length_replicate]; exact hslot)
  rw [RowCellPlan.tabled, precomputeDenseFixedOffsets, hparts, htable, denseFieldOffset]
  refine bind_congr fun bodyBase => ?_
  dsimp only [Option.bind_some]
  have hsplit' := hparts.symm.trans hsplit
  have hnotin : ∀ {l r : List ℕ} {x : ℕ}, (l ++ x :: r).Nodup → x ∉ l ∧ x ∉ r := fun {l r x} hl =>
    ⟨fun hno => (List.nodup_append.mp hl).2.2 _ hno _ List.mem_cons_self rfl,
      (List.nodup_cons.mp (List.nodup_append.mp hl).2.1).1⟩
  have hends := hnotin (hsplit' ▸ hnd)
  rcases List.mem_append.mp (hsplit' ▸ List.mem_append_right _ List.mem_cons_self : denseHolder plan slot ∈ fixed ++ vars) with hin | hin
  · obtain ⟨front, back, hfront⟩ := List.append_of_mem hin
    have heq : pre = front := by
      rw [hfront, List.append_assoc, List.cons_append] at hsplit'
      exact ((List.append_cons_inj_of_notMem hends.1 hends.2).mp hsplit'.symm).1
    have hvarFront : ∀ f ∈ pre, isVarSigil (sch.sigil f) = false := fun f hf =>
      (hfixed f (hfront ▸ List.mem_append_left _ (heq ▸ hf))).2
    rw [hfound front back hfront, walk_fixed hvarFront, ok_bind, (hfixed _ hin).2, if_neg Bool.false_ne_true, heq]
    rfl
  · obtain ⟨front, back, hback⟩ := List.append_of_mem hin
    obtain ⟨hunpacked, hvar⟩ := hvars _ hin
    have hself : denseHolder plan slot = slot := by
      cases hp : plan.isPacked slot with
      | true =>
        have := (holder_of_packed h.plan_of.firstBool hp).2
        rw [hunpacked] at this
        cases this
      | false => exact (holder_of_unpacked hp).1
    have heq : pre = fixed ++ front := by
      rw [hback, ← List.append_assoc] at hsplit'
      exact ((List.append_cons_inj_of_notMem hends.1 hends.2).mp hsplit'.symm).1
    have hfilter : (fixed ++ vars).filter (fun fi => isVarSigil (sch.sigil fi)) = front ++ slot :: back := by
      have hnone : fixed.filter (fun fi => isVarSigil (sch.sigil fi)) = [] :=
        List.filter_eq_nil_iff.mpr fun f hf => by rw [(hfixed f hf).2]; exact Bool.false_ne_true
      have hall : vars.filter (fun fi => isVarSigil (sch.sigil fi)) = vars :=
        List.filter_eq_self.mpr fun v hv => (hvars v hv).2
      rw [List.filter_append, hnone, hall, List.nil_append, hback, hself]
    have hvarStep : ∀ {l : List ℕ} {pos : ℕ}, (∀ v ∈ l, plan.isPacked v = false) →
        l.foldlM (walkStep sch plan d bodyBase) pos =
          l.foldlM (fun pos fi => advanceDensePastCell d bodyBase pos fi sch plan) pos := by
      intro l
      induction l with
      | nil => exact fun _ => rfl
      | cons v l ih =>
        intro pos hl
        rw [List.foldlM_cons, List.foldlM_cons, walkStep, hl v List.mem_cons_self, if_neg Bool.false_ne_true]
        exact bind_congr fun pos' => ih fun v hv => hl v (List.mem_cons_of_mem _ hv)
    have hnotFixed : denseHolder plan slot ∉ fixed := fun hno => hdisjoint _ hno _ hin rfl
    have hnone : (table[slot]?).join = none := by
      rw [hkeep hnotFixed, List.getElem?_replicate, if_pos hslot]
      rfl
    have hnonempty : vars.isEmpty = false := List.isEmpty_eq_false_iff.mpr (List.ne_nil_of_mem hin)
    rw [heq, List.foldlM_append, walk_fixed (fun f hf => (hfixed f hf).2), ok_bind,
      hvarStep (fun v hv => (hvars v (hback ▸ List.mem_append_left _ hv)).1), hvar, hnone, hnonempty]
    refine (denseVarWalk_eq (show _ = front ++ slot :: back from (congrArg (List.filter _) hparts).trans hfilter)
      (hself ▸ (hnotin (hback ▸ hndVars)).1)).trans ?_
    rfl

theorem takeWhile_split {x : ℕ} : ∀ {pre rest : List ℕ}, x ∉ pre → (pre ++ x :: rest).takeWhile (· != x) = pre
  | [], rest, _ => List.takeWhile_cons_of_neg (by rw [bne_self_eq_false]; exact Bool.false_ne_true)
  | a :: pre, rest, h => by
    have hne : (a != x) = true := bne_iff_ne.mpr fun heq => h (heq ▸ List.mem_cons_self)
    have hwhile : (a :: pre ++ x :: rest).takeWhile (· != x) = a :: (pre ++ x :: rest).takeWhile (· != x) :=
      List.takeWhile_cons_of_pos hne
    rw [hwhile, takeWhile_split fun hin => h (List.mem_cons_of_mem _ hin)]

/-- The slot of the first packed bool, and a cell of it. -/
theorem first_packed (h : Planned sch plan) (hon : plan.packedBools = true) {first : ℕ} (hfirst : plan.firstBool = some first) :
    plan.isPacked first = true ∧ first < sch.keys.length ∧ first ∈ heldOrder sch plan := by
  have hmem : first ∈ plan.boolSlots := List.mem_of_mem_head? (by rw [← h.plan_of.firstBool, hfirst]; rfl)
  have hheld : denseHeld plan first = true := by rw [denseHeld, hfirst, beq_self_eq_true, Bool.or_true]
  have hlt : first < sch.keys.length := by
    have hin := hmem
    rw [h.plan_of.boolSlots, ExtendedSchema.boolSlots, List.mem_filter, List.mem_range, h.lengths] at hin
    exact hin.1
  exact ⟨isPacked_eq_true.mpr ⟨hon, hmem⟩, hlt, List.mem_filter.mpr ⟨(mem_denseWireOrder hheld).mpr hlt, hheld⟩⟩

/-- Where the walk finds every cell, what the table and the walk over the strings return for a slot: the place of its
cell, or for a string the position in front of its padding. -/
theorem tabled_eq (h : DenseRecord cells sch plan) (horder : plan.denseWireReorder = true)
    (hnone : plan.denseFixedBodyOffsets = none) {d body : Bytes} {offset slot : ℕ}
    (hbody : DenseBodyAt cells sch plan d (offset + 9) (heldOrder sch plan) body)
    (halike : WalkedAlike cells sch plan (heldOrder sch plan)) (hslot : slot < sch.keys.length) :
    (isVarSigil (sch.sigil slot) = false →
      denseFieldOffset d offset slot sch (plan.tabled sch) = denseFieldOffset d offset slot sch plan) ∧
    (isVarSigil (sch.sigil slot) = true → ∃ pre rest, heldOrder sch plan = pre ++ slot :: rest ∧ slot ∉ pre ∧
      denseFieldOffset d offset slot sch (plan.tabled sch) = .ok (some (offset + 9 + densePos cells sch plan pre)) ∧
      densePlace cells sch plan slot = .ok (cellPlace cells sch plan (densePos cells sch plan pre) slot)) := by
  have hsmall := hbody.small
  have hle := hbody.placed.le
  have hwire : denseWireOrder sch plan = denseReordered sch plan := by
    rw [denseWireOrder, horder, if_neg (fun hno => Bool.noConfusion hno)]
  have hwireHeld : heldOrder sch plan = denseWireOrder sch plan := (heldOrder_reordered h.planned horder).trans hwire.symm
  obtain ⟨pre, rest, hsplit, hpre⟩ := heldOrder_split h.planned hslot
  have hfront := hsplit
  rw [hwireHeld] at hfront
  rw [denseFieldOffset_tabled h.planned horder hslot hfront]
  constructor
  · intro hvar
    have hholderVar : isVarSigil (sch.sigil (denseHolder plan slot)) = false := by
      cases hp : plan.isPacked slot with
      | true =>
        obtain ⟨hfirst, hpacked⟩ := holder_of_packed h.plan_of.firstBool hp
        have hlt := (first_packed h.planned (isPacked_eq_true.mp hp).1 hfirst).2.1
        rw [((h.columns.isPacked_iff h.plan_of hlt).mp hpacked).2]
        decide
      | false =>
        rw [(holder_of_unpacked hp).1]
        exact hvar
    rw [denseFieldOffset, hnone]
    refine bind_congr fun bodyBase => ?_
    rw [hholderVar]
    exact (denseWalk_eq h.plan_of.firstBool hsplit hpre).symm
  · intro hvar
    have hunpacked := h.planned.unpacked_of_var hslot hvar
    have hsig := h.sigil_of_var hslot hvar
    obtain ⟨hself, hbyte⟩ := holder_of_unpacked hunpacked
    have hplace := densePlace_eq hbody.held hbody.encoded hsplit hpre
    rw [hself, hbyte, Nat.add_zero] at hplace
    rw [hself] at hsplit hpre
    obtain ⟨-, ⟨front, hrun, hlen⟩, bytes, -, hat⟩ := denseFold_at (hsplit ▸ hbody.held) (hsplit ▸ hbody.encoded)
    have hin := hat.le
    have hpos : densePos cells sch plan pre ≤ cellPlace cells sch plan (densePos cells sch plan pre) slot := Nat.le_add_right _ _
    refine ⟨pre, rest, hsplit, hpre, ?_, hplace⟩
    rw [usizeAdd_of (by omega), ok_bind, walk_of_string h hbody halike hsplit hsig, ok_bind, hself, if_pos hvar,
      usizeAdd_of (by omega), ok_bind]

/-- Table, walk and encoder agree on every slot exactly when the record fits. -/
theorem tabled_agree_iff (h : DenseRecord cells sch plan) (horder : plan.denseWireReorder = true)
    (hnone : plan.denseFixedBodyOffsets = none) {d body : Bytes} {offset : ℕ} (hd : d.length < 2 ^ 63)
    (henc : encodeDenseBody cells sch plan = .ok body) (hat : At d (offset + 9) body) :
    (∀ slot < sch.keys.length, ∃ p, densePlace cells sch plan slot = .ok p ∧
      denseFieldOffset d offset slot sch (plan.tabled sch) = .ok (some (offset + 9 + p)) ∧
      denseFieldOffset d offset slot sch plan = .ok (some (offset + 9 + p))) ↔ WireFits cells sch plan := by
  have hbody := denseBodyAt_of henc hd hat
  have hle := hat.le
  have hwire : denseWireOrder sch plan = denseReordered sch plan := by
    rw [denseWireOrder, horder, if_neg (fun hno => Bool.noConfusion hno)]
  have hwireHeld : heldOrder sch plan = denseWireOrder sch plan := (heldOrder_reordered h.planned horder).trans hwire.symm
  have hnd : (heldOrder sch plan).Nodup := denseWireOrder_nodup.filter _
  have hgeneric : ∀ slot, denseFieldOffset d offset slot sch plan =
      denseWalk d (offset + 9) slot sch plan (denseWireOrder sch plan) 0 := by
    intro slot
    rw [denseFieldOffset, usizeAdd_of (by omega), ok_bind, hnone]
    rfl
  have hwirePos : ∀ {pre rest : List ℕ} {fi : ℕ}, heldOrder sch plan = pre ++ fi :: rest →
      wirePos cells sch plan fi = densePos cells sch plan pre ∧ densePos cells sch plan pre + 8 ≤ 2 ^ 64 := by
    intro pre rest fi hsplit
    have hpre : fi ∉ pre := fun hno => by
      rw [hsplit] at hnd
      exact (List.nodup_append.mp hnd).2.2 _ hno _ List.mem_cons_self rfl
    obtain ⟨hstop, -⟩ := denseFold_at (hsplit ▸ hbody.held) (hsplit ▸ hbody.encoded)
    have hpos : densePos cells sch plan pre ≤ densePos cells sch plan (pre ++ [fi]) := by
      rw [densePos_append]
      exact Nat.le_trans (Nat.le_add_right _ _) (Nat.le_add_right _ _)
    rw [wirePos, ← hwireHeld, hsplit, takeWhile_split hpre]
    exact ⟨rfl, by omega⟩
  have hword : plan.packedBools = true → plan.boolSlots ≠ [] → plan.boolWordBytes ≤ 8 := by
    intro hon hne
    obtain ⟨first, slots, hslots⟩ := List.exists_cons_of_ne_nil hne
    have hfirst : plan.firstBool = some first := by
      rw [h.plan_of.firstBool, hslots]
      rfl
    obtain ⟨hpacked, -, hmem⟩ := first_packed h.planned hon hfirst
    obtain ⟨pre, rest, hsplit⟩ := List.append_of_mem hmem
    obtain ⟨-, -, bytes, hbytes, -⟩ := denseFold_at (hsplit ▸ hbody.held) (hsplit ▸ hbody.encoded)
    rw [denseBytes, if_pos hpacked] at hbytes
    exact boolWordBytes_le_of_range hbytes
  constructor
  · intro hagree
    have halike := (denseWalk_places_iff h hbody).mp fun slot hslot => by
      obtain ⟨p, hp, -, hwalk⟩ := hagree slot hslot
      exact ⟨p, hp, (hgeneric slot).symm.trans hwalk⟩
    refine ⟨fun hon first hfirst => ?_, fun pre fi next rest hsplit => ?_, fun fi hfi hprom => ?_, fun pre fi next rest hsplit => ?_⟩
    · obtain ⟨hpacked, -, hmem⟩ := first_packed h.planned hon hfirst
      obtain ⟨pre, rest, hsplit⟩ := List.append_of_mem hmem
      obtain ⟨hpos, hsmall⟩ := hwirePos hsplit
      rw [hpos]
      exact (placed_reordered h horder hword hsplit hsmall).mp (halike.placed _ _ _ hsplit) hpacked
    · exact (halike.passed _ _ _ _ (hwireHeld.trans hsplit)).1
    · have hsig := h.columns.promoted fi hprom
      have hvar : isVarSigil (sch.sigil fi) = true := by
        rw [hsig]
        decide
      obtain ⟨pre, rest, hsplit, -, htab, hplace⟩ := (tabled_eq h horder hnone hbody halike hfi).2 hvar
      obtain ⟨p, hp, hoff, -⟩ := hagree fi hfi
      rw [htab] at hoff
      rw [hplace] at hp
      cases hp
      injection hoff with hoff
      injection hoff with hoff
      rw [(hwirePos hsplit).1]
      cases h.cell hfi with
      | promoted s hpacked hcell _ _ =>
        rw [cellPlace_of_cell hpacked hcell, appendAlign, if_pos hprom] at hoff
        have hdvd := padLen_dvd (show 0 < 2 by decide) (densePos cells sch plan pre)
        omega
      | packed hp => rw [h.planned.unpacked_of_var hfi hvar] at hp; cases hp
      | number cell _ _ _ _ hno =>
        rw [hsig] at hno
        exact absurd hno (by decide)
      | eight cell _ _ _ _ hno =>
        rw [hsig] at hno
        exact absurd hno (by decide)
      | inline s _ _ _ hno => rw [hprom] at hno; cases hno
    · exact (halike.passed _ _ _ _ (hwireHeld.trans hsplit)).2
  · intro hfit
    have halike : WalkedAlike cells sch plan (heldOrder sch plan) := by
      refine ⟨fun pre fi rest hsplit => ?_, fun pre fi next rest hsplit => ?_⟩
      · obtain ⟨hpos, hsmall⟩ := hwirePos hsplit
        refine (placed_reordered h horder hword hsplit hsmall).mpr fun hpacked => ?_
        have hheld := hbody.held fi (hsplit ▸ List.mem_append_right _ List.mem_cons_self)
        rw [denseHeld, hpacked, Bool.not_true, Bool.false_or, beq_iff_eq] at hheld
        rw [← hpos]
        exact hfit.word (isPacked_eq_true.mp hpacked).1 fi hheld
      · rw [hwireHeld] at hsplit
        exact ⟨hfit.narrow _ _ _ _ hsplit, hfit.long _ _ _ _ hsplit⟩
    intro slot hslot
    obtain ⟨p, hp, hwalk⟩ := (denseWalk_places_iff h hbody).mpr halike slot hslot
    have hgen := (hgeneric slot).trans hwalk
    refine ⟨p, hp, ?_, hgen⟩
    cases hvar : isVarSigil (sch.sigil slot) with
    | false => exact ((tabled_eq h horder hnone hbody halike hslot).1 hvar).trans hgen
    | true =>
      obtain ⟨pre, rest, hsplit, -, htab, hplace⟩ := (tabled_eq h horder hnone hbody halike hslot).2 hvar
      have hsig := h.sigil_of_var hslot hvar
      rw [hplace] at hp
      cases hp
      have hzero : cellPlace cells sch plan (densePos cells sch plan pre) slot = densePos cells sch plan pre := by
        cases h.cell hslot with
        | promoted s hpacked hcell _ hprom =>
          have hdvd := hfit.promoted slot hslot hprom
          rw [(hwirePos hsplit).1] at hdvd
          rw [cellPlace_of_cell hpacked hcell, appendAlign, if_pos hprom, padLen_of_dvd hdvd, Nat.add_zero]
        | inline s hpacked hcell _ hprom =>
          rw [cellPlace_of_cell hpacked hcell, appendAlign, hprom, if_neg Bool.false_ne_true, padLen_one, Nat.add_zero]
        | packed hp => rw [h.planned.unpacked_of_var hslot hvar] at hp; cases hp
        | number cell _ _ _ _ hno =>
          rw [hsig] at hno
          exact absurd hno (by decide)
        | eight cell _ _ _ _ hno =>
          rw [hsig] at hno
          exact absurd hno (by decide)
      rw [htab, hzero]

end

/-- Dense frames with wire reordering: the precomputed offsets, the generic walk and the encoder agree on every slot
exactly when the record fits. -/
theorem offsets_agree_iff {cells : List (ℕ × CompactCell)} {sch : ExtendedSchema} {flags offset : ℕ} {d body : Bytes}
    (hcols : DenseColumns sch) (hrow : FullRow cells sch)
    (hflags : hasFlag flags FLAG_DENSE_FRAMES = true ∧ hasFlag flags FLAG_DENSE_WIRE_REORDER = true)
    (henc : encodeDenseBody cells sch (RowCellPlan.new sch flags) = .ok body) (hat : At d (offset + 9) body)
    (hd : d.length < 2 ^ 63) :
    OffsetsAgree d offset cells sch (RowCellPlan.new sch flags) ↔ WireFits cells sch (RowCellPlan.new sch flags) := by
  have hrecord : DenseRecord cells sch (RowCellPlan.bare sch flags) := ⟨hcols, hrow, planOf_bare sch flags⟩
  rw [new_reordered hflags] at henc ⊢
  have hiff := tabled_agree_iff hrecord hflags.2 rfl hd henc hat
  constructor
  · intro hagree
    have hfit := hiff.mp hagree
    exact ⟨hfit.word, hfit.narrow, hfit.promoted, hfit.long⟩
  · intro hfit
    exact hiff.mpr ⟨hfit.word, hfit.narrow, hfit.promoted, hfit.long⟩

/-! ## Records that the table is right for, and that it is wrong for -/

/-- A byte, a bool and an inline string. -/
def userSchema : ExtendedSchema := ⟨["id", "active", "name"], [SIGIL_INT, SIGIL_BOOL, SIGIL_STR], [1, 0, 0], [], []⟩

def userRow : List (ℕ × CompactCell) := [(0, .i64 7), (1, .bool true), (2, .str "a")]

def userRecord : Bytes := [79, 88, 89, 78, 19, 0, 0, 0, 1, 7, 1, 1, 0, 0, 0, 97, 0, 0, 0]

theorem offsets_agree_user :
    OffsetsAgree userRecord 0 userRow userSchema (RowCellPlan.new userSchema CompactOptions.compact.preambleFlags) ↔
      WireFits userRow userSchema (RowCellPlan.new userSchema CompactOptions.compact.preambleFlags) :=
  offsets_agree_iff
    ⟨rfl, by decide, fun fi hp => absurd hp (by simp [ExtendedSchema.isPromoted, userSchema, hasFlag]), fun fi => by
      rcases fi with _ | _ | _ | fi <;> simp [userSchema]⟩
    ⟨by decide, by decide, by decide⟩ (by decide)
    (show encodeDenseBody _ _ _ = .ok [7, 1, 1, 0, 0, 0, 97, 0, 0, 0] by decide +kernel)
    ⟨[79, 88, 89, 78, 19, 0, 0, 0, 1], [], rfl, rfl⟩ (by decide)

/-- A byte and a promoted string behind it. -/
def citySchema : ExtendedSchema := ⟨["id", "city"], [SIGIL_INT, SIGIL_STR], [1, 2], [0, 1], ["Oslo", "Rome"]⟩

def cityRow : List (ℕ × CompactCell) := [(0, .i64 7), (1, .str "Rome")]

def cityRecord : Bytes := [79, 88, 89, 78, 13, 0, 0, 0, 1, 7, 0, 1, 0]

/-- The index of the string is written at position 2, and found there by the walk over all cells; with the table the
string is taken to be at position 1. -/
theorem offsets_not_agree : DenseColumns citySchema ∧ FullRow cityRow citySchema ∧
    encodeCompactRecord cityRow citySchema CompactOptions.compact = .ok cityRecord ∧
    densePlace cityRow citySchema (RowCellPlan.new citySchema CompactOptions.compact.preambleFlags) 1 = .ok 2 ∧
    denseFieldOffset cityRecord 0 1 citySchema (RowCellPlan.new citySchema CompactOptions.compact.preambleFlags).generic =
      .ok (some 11) ∧
    denseFieldOffset cityRecord 0 1 citySchema (RowCellPlan.new citySchema CompactOptions.compact.preambleFlags) =
      .ok (some 10) ∧
    ¬ OffsetsAgree cityRecord 0 cityRow citySchema (RowCellPlan.new citySchema CompactOptions.compact.preambleFlags) := by
  have htable : denseFieldOffset cityRecord 0 1 citySchema (RowCellPlan.new citySchema CompactOptions.compact.preambleFlags) =
      .ok (some 10) := by decide +kernel
  have hwalk : denseFieldOffset cityRecord 0 1 citySchema
      (RowCellPlan.new citySchema CompactOptions.compact.preambleFlags).generic = .ok (some 11) := by decide +kernel
  refine ⟨⟨rfl, by decide, fun fi hp => ?_, fun fi => ?_⟩, ⟨by decide, by decide, by decide⟩, by decide +kernel, by decide +kernel,
    hwalk, htable, fun hagree => ?_⟩
  · rcases fi with _ | _ | fi
    · exact absurd hp (by decide)
    · rfl
    · exact absurd hp (by simp [ExtendedSchema.isPromoted, citySchema, hasFlag])
  · rcases fi with _ | _ | fi <;> simp [citySchema]
  · obtain ⟨p, -, hp, hp'⟩ := hagree 1 (by decide)
    rw [htable] at hp
    rw [hwalk, ← hp] at hp'
    exact absurd hp' (by decide)

end Nyxis

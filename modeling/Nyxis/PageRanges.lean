import Mathlib.Data.List.Destutter
import Mathlib.Data.List.Sort
import Mathlib.Order.Interval.Set.Basic
import Nyxis.Lib.Clusters
import Nyxis.Format

/-!
# PageRanges — the byte ranges that the prefetch engine fetches

`coalescePageIndices` turns page numbers into ranges of pages: numbers that are at most `gap` apart share a range.
`clampRanges` cuts the ranges at the end of the file.

* `coalesceSpans_clusters`: the loop cuts the ascending page numbers where the gap is exceeded.
* `coalesce_exact`: the ranges, and what is left of them.
-/

namespace Nyxis

open Lib Lib.Outcome

structure CoalescedRange where
  pageStart : UInt32
  pageEnd : UInt32
  byteStart : ℕ
  byteLength : ℕ
  deriving DecidableEq, Repr

/-- `a.saturating_sub(b)` on `u32`. -/
def saturatingSub (a b : UInt32) : UInt32 := if b ≤ a then a - b else 0

/-- The loop over the page numbers behind the first one; `start` and `last` are the ends of the open span. -/
def coalesceSpans (gap start last : UInt32) : List UInt32 → List (UInt32 × UInt32)
  | [] => [(start, last)]
  | idx :: rest =>
    if saturatingSub idx last ≤ gap then coalesceSpans gap start idx rest
    else (start, last) :: coalesceSpans gap idx idx rest

/-- `n.checked_add(1)` on `u32`. -/
def checkedSucc (n : UInt32) : Opt ℕ := if n.toNat + 1 < 2 ^ 32 then .ok (n.toNat + 1) else none'

/-- The range of a span, where its bytes do not overflow. -/
def rangeOfSpan (pageSize : ℕ) (span : UInt32 × UInt32) : Opt CoalescedRange := do
  let count ← checkedSucc (span.2 - span.1)
  let byteStart ← checkedMul span.1.toNat pageSize
  let byteLength ← checkedMul count pageSize
  .ok ⟨span.1, span.2, byteStart, byteLength⟩

/-- The page numbers in ascending order, each of them once. -/
def sortedPages (indices : List UInt32) : List UInt32 :=
  (indices.insertionSort (· ≤ ·)).destutter (· ≠ ·)

def coalescePageIndices (indices : List UInt32) (gapPages pageSize : ℕ) : List CoalescedRange :=
  match sortedPages indices with
  | [] => []
  | first :: rest => (coalesceSpans (.ofNat gapPages) first first rest).filterMap fun span => (rangeOfSpan pageSize span).toOption

def clampRange (fileSize : ℕ) (r : CoalescedRange) : Opt CoalescedRange :=
  if r.byteStart ≥ fileSize then none'
  else do
    let stop ← checkedAdd r.byteStart r.byteLength
    let byteLength := if stop > fileSize then fileSize - r.byteStart else r.byteLength
    if byteLength = 0 then none' else .ok { r with byteLength }

def clampRanges (ranges : List CoalescedRange) (fileSize : ℕ) : List CoalescedRange :=
  ranges.filterMap fun r => (clampRange fileSize r).toOption

/-! ## What they should be -/

/-- The bytes of a range. -/
def CoalescedRange.bytes (r : CoalescedRange) : Set ℕ := Set.Ico r.byteStart (r.byteStart + r.byteLength)

/-- Ranges that cover the requested pages, and no more than gaps of the permitted length between them. -/
structure Coalesced (indices : List UInt32) (gapPages pageSize : ℕ) (ranges : List CoalescedRange) : Prop where
  sorted : ranges.Pairwise fun r s => r.pageEnd < s.pageStart
  ordered : ∀ r ∈ ranges, r.pageStart ≤ r.pageEnd
  requested : ∀ r ∈ ranges, r.pageStart ∈ indices ∧ r.pageEnd ∈ indices
  covers : ∀ p ∈ indices, ∃ r ∈ ranges, r.pageStart ≤ p ∧ p ≤ r.pageEnd
  apart : ranges.IsChain fun r s => gapPages < s.pageStart.toNat - r.pageEnd.toNat
  skips : ∀ r ∈ ranges, ∀ p ∈ indices, r.pageStart ≤ p → p < r.pageEnd →
    ∃ q ∈ indices, p < q ∧ q ≤ r.pageEnd ∧ q.toNat - p.toNat ≤ gapPages
  bytes : ∀ r ∈ ranges, r.byteStart = r.pageStart.toNat * pageSize ∧
    r.byteStart + r.byteLength = (r.pageEnd.toNat + 1) * pageSize

/-- The intersections of the ranges with the file, where they are not empty. -/
def Clamped (fileSize : ℕ) (ranges clamped : List CoalescedRange) : Prop :=
  List.Forall₂ (fun r c => c.pageStart = r.pageStart ∧ c.pageEnd = r.pageEnd ∧ c.byteStart = r.byteStart ∧
      c.bytes = r.bytes ∩ Set.Iio fileSize)
    (ranges.filter fun r => @decide (r.bytes ∩ Set.Iio fileSize).Nonempty (Classical.propDecidable _)) clamped

/-! ## The loop -/

/-- Page numbers that share a range. -/
def Near (gap a b : UInt32) : Prop := saturatingSub b a ≤ gap

theorem coalesceSpans_start (gap start last : UInt32) (rest : List UInt32) : ∃ e spans,
    coalesceSpans gap start last rest = (start, e) :: spans ∧ coalesceSpans gap last last rest = (last, e) :: spans := by
  induction rest generalizing start last with
  | nil => exact ⟨last, [], rfl, rfl⟩
  | cons idx rest ih =>
    rw [coalesceSpans, coalesceSpans]
    by_cases hnear : saturatingSub idx last ≤ gap
    · rw [if_pos hnear, if_pos hnear]
      obtain ⟨e, spans, h1, h2⟩ := ih start idx
      obtain ⟨e', spans', h1', h2'⟩ := ih last idx
      rw [h2, List.cons.injEq, Prod.mk.injEq] at h2'
      obtain ⟨⟨-, rfl⟩, rfl⟩ := h2'
      exact ⟨e, spans, h1, h1'⟩
    · rw [if_neg hnear, if_neg hnear]
      exact ⟨last, _, rfl, rfl⟩

/-- The loop cuts the page numbers where the gap is exceeded. -/
theorem coalesceSpans_clusters (gap first : UInt32) (rest : List UInt32) :
    Clusters (Near gap) (first :: rest) (coalesceSpans gap first first rest) := by
  induction rest generalizing first with
  | nil => exact .one first
  | cons idx rest ih =>
    rw [coalesceSpans]
    by_cases hnear : saturatingSub idx first ≤ gap
    · rw [if_pos hnear]
      obtain ⟨e, spans, h1, h2⟩ := coalesceSpans_start gap first idx rest
      rw [h1]
      have ih := ih idx
      rw [h2] at ih
      exact .near hnear ih
    · rw [if_neg hnear]
      exact .far hnear (ih idx)

theorem mem_destutter_ne {α : Type} [DecidableEq α] (x : α) (l : List α) : x ∈ l.destutter (· ≠ ·) ↔ x ∈ l := by
  have hcons : ∀ (l : List α) (a : α), x ∈ l.destutter' (· ≠ ·) a ↔ x = a ∨ x ∈ l := by
    intro l
    induction l with
    | nil => simp
    | cons b l ih =>
      intro a
      by_cases hab : a = b
      · subst hab
        rw [List.destutter'_cons_neg _ (by simp), ih, List.mem_cons]
        simp
      · rw [List.destutter'_cons_pos _ hab, List.mem_cons, ih, List.mem_cons]
  cases l with
  | nil => rfl
  | cons a l => rw [List.destutter_cons', hcons, List.mem_cons]

theorem mem_sortedPages {p : UInt32} {indices : List UInt32} : p ∈ sortedPages indices ↔ p ∈ indices := by
  rw [sortedPages, mem_destutter_ne, List.mem_insertionSort]

theorem sortedPages_ascending (indices : List UInt32) :
    (sortedPages indices).Pairwise fun a b => a.toNat < b.toNat := by
  have : Std.Total (α := UInt32) (· ≤ ·) := ⟨UInt32.le_total⟩
  have : IsTrans UInt32 (· ≤ ·) := ⟨fun _ _ _ => UInt32.le_trans⟩
  have hsorted : (indices.insertionSort (· ≤ ·)).Pairwise fun a b => a.toNat ≤ b.toNat :=
    (List.pairwise_insertionSort (· ≤ ·) indices).imp UInt32.le_iff_toNat_le.mp
  have hle : (sortedPages indices).Pairwise fun a b => a.toNat ≤ b.toNat := hsorted.sublist (List.destutter_sublist _ _)
  -- neighbours differ, and so they ascend
  have hchain : (sortedPages indices).IsChain fun a b => a.toNat < b.toNat := by
    have hne : (sortedPages indices).IsChain (· ≠ ·) := List.isChain_destutter _ _
    have hle := hle.isChain
    generalize sortedPages indices = l at hne hle
    induction l with
    | nil => exact .nil
    | cons a l ih =>
      cases l with
      | nil => exact List.isChain_singleton _
      | cons b l =>
        rw [List.isChain_cons_cons] at hne hle ⊢
        have := UInt32.toNat_inj.not.mpr hne.1
        exact ⟨by omega, ih hne.2 hle.2⟩
  exact List.isChain_iff_pairwise.mp hchain

/-! ## The ranges -/

theorem rangeOfSpan_of {pageSize : ℕ} {span : UInt32 × UInt32} (hle : span.1 ≤ span.2) (hlast : span.2.toNat < 2 ^ 32 - 1)
    (hend : (span.2.toNat + 1) * pageSize < 2 ^ 64) : rangeOfSpan pageSize span =
      .ok ⟨span.1, span.2, span.1.toNat * pageSize, (span.2.toNat - span.1.toNat + 1) * pageSize⟩ := by
  rw [UInt32.le_iff_toNat_le] at hle
  have hcount : (span.2 - span.1).toNat = span.2.toNat - span.1.toNat := UInt32.toNat_sub_of_le _ _ hle
  have hstart : span.1.toNat * pageSize < 2 ^ 64 := (Nat.mul_le_mul_right _ (by omega)).trans_lt hend
  have hlen : (span.2.toNat - span.1.toNat + 1) * pageSize < 2 ^ 64 := (Nat.mul_le_mul_right _ (by omega)).trans_lt hend
  rw [rangeOfSpan, checkedSucc, hcount, if_pos (by omega), ok_bind, checkedMul_of hstart, ok_bind, checkedMul_of hlen,
    ok_bind]

/-- The range of a span whose bytes do not overflow. -/
def spanRange (pageSize : ℕ) (span : UInt32 × UInt32) : CoalescedRange :=
  ⟨span.1, span.2, span.1.toNat * pageSize, (span.2.toNat - span.1.toNat + 1) * pageSize⟩

theorem near_iff {gap a b : UInt32} (h : a < b) : Near gap a b ↔ b.toNat - a.toNat ≤ gap.toNat := by
  have hle : a ≤ b := UInt32.le_of_lt h
  rw [Near, saturatingSub, if_pos hle, UInt32.le_iff_toNat_le, UInt32.toNat_sub_of_le _ _ hle]

section

variable {indices : List UInt32} {gapPages pageSize : ℕ}

/-- The ranges are those of the clusters of the requested pages. -/
theorem coalescePageIndices_clusters (hne : indices ≠ []) (hlast : ∀ p ∈ indices, p.toNat < 2 ^ 32 - 1)
    (hend : ∀ p ∈ indices, (p.toNat + 1) * pageSize < 2 ^ 64) :
    ∃ spans, Clusters (Near (.ofNat gapPages)) (sortedPages indices) spans ∧
      coalescePageIndices indices gapPages pageSize = spans.map (spanRange pageSize) := by
  have hasc := sortedPages_ascending indices
  have hmem : ∀ p, p ∈ sortedPages indices ↔ p ∈ indices := fun p => mem_sortedPages
  rw [coalescePageIndices]
  cases hpages : sortedPages indices with
  | nil =>
    rw [hpages] at hmem
    exact absurd (List.eq_nil_iff_forall_not_mem.mpr fun p hp => by simpa using (hmem p).mpr hp) hne
  | cons first rest =>
    rw [hpages] at hasc hmem
    have hspans := coalesceSpans_clusters (.ofNat gapPages) first rest
    refine ⟨_, hspans, ?_⟩
    dsimp only
    rw [← List.filterMap_eq_map]
    refine List.filterMap_congr fun s hs => ?_
    obtain ⟨-, h2⟩ := hspans.ends_mem s hs
    have hp := (hmem s.2).mp h2
    rw [rangeOfSpan_of (UInt32.le_iff_toNat_le.mpr (hspans.start_le_end hasc s hs)) (hlast s.2 hp) (hend s.2 hp)]
    rfl

theorem coalesced (hgap : gapPages < 2 ^ 32) (hlast : ∀ p ∈ indices, p.toNat < 2 ^ 32 - 1)
    (hend : ∀ p ∈ indices, (p.toNat + 1) * pageSize < 2 ^ 64) :
    Coalesced indices gapPages pageSize (coalescePageIndices indices gapPages pageSize) := by
  by_cases hne : indices = []
  · subst hne
    have hnil : coalescePageIndices [] gapPages pageSize = [] := by
      rw [coalescePageIndices, sortedPages, List.insertionSort_nil, List.destutter_nil]
    rw [hnil]
    constructor <;> simp
  obtain ⟨spans, hspans, hranges⟩ := @coalescePageIndices_clusters indices gapPages pageSize hne hlast hend
  have hasc := sortedPages_ascending indices
  have hmem : ∀ p, p ∈ sortedPages indices ↔ p ∈ indices := fun p => mem_sortedPages
  have hgapNat : (UInt32.ofNat gapPages).toNat = gapPages := by
    rw [UInt32.toNat_ofNat']
    exact Nat.mod_eq_of_lt hgap
  rw [hranges]
  constructor
  · rw [List.pairwise_map]
    exact (hspans.disjoint hasc).imp fun h => UInt32.lt_iff_toNat_lt.mpr h
  · rw [List.forall_mem_map]
    exact fun s hs => UInt32.le_iff_toNat_le.mpr (hspans.start_le_end hasc s hs)
  · rw [List.forall_mem_map]
    intro s hs
    obtain ⟨h1, h2⟩ := hspans.ends_mem s hs
    exact ⟨(hmem _).mp h1, (hmem _).mp h2⟩
  · intro p hp
    obtain ⟨s, hs, h1, h2⟩ := hspans.covers hasc p ((hmem p).mpr hp)
    exact ⟨spanRange pageSize s, List.mem_map_of_mem hs, UInt32.le_iff_toNat_le.mpr h1, UInt32.le_iff_toNat_le.mpr h2⟩
  · rw [List.isChain_map]
    have hboth := List.isChain_iff_getElem.mp hspans.apart
    rw [List.isChain_iff_getElem]
    intro i hi
    have hlt := UInt32.lt_iff_toNat_lt.mpr (List.isChain_iff_getElem.mp (hspans.disjoint hasc).isChain i hi)
    have hfar := hboth i hi
    rw [near_iff hlt, hgapNat] at hfar
    exact Nat.not_le.mp hfar
  · rw [List.forall_mem_map]
    intro s hs p hp h1 h2
    obtain ⟨q, hq, hlt, hle, hnear⟩ := hspans.step hasc s hs p ((hmem p).mpr hp) (UInt32.le_iff_toNat_le.mp h1)
      (UInt32.lt_iff_toNat_lt.mp h2)
    have hlt := UInt32.lt_iff_toNat_lt.mpr hlt
    rw [near_iff hlt, hgapNat] at hnear
    exact ⟨q, (hmem q).mp hq, hlt, UInt32.le_iff_toNat_le.mpr hle, hnear⟩
  · rw [List.forall_mem_map]
    intro s hs
    have hle := hspans.start_le_end hasc s hs
    refine ⟨rfl, ?_⟩
    dsimp only [spanRange]
    rw [← Nat.add_mul]
    congr 1
    omega

theorem clampRange_cases {fileSize : ℕ} {r : CoalescedRange} (hend : r.byteStart + r.byteLength < 2 ^ 64)
    (hlen : 0 < r.byteLength) : (clampRange fileSize r).toOption =
      if r.byteStart < fileSize then some { r with byteLength := min r.byteLength (fileSize - r.byteStart) } else none := by
  rw [clampRange]
  by_cases hstart : r.byteStart < fileSize
  · rw [if_neg (by omega), if_pos hstart, checkedAdd_of hend, ok_bind]
    dsimp only
    by_cases hover : r.byteStart + r.byteLength > fileSize
    · rw [if_pos hover, if_neg (by omega), Nat.min_eq_right (by omega)]
      rfl
    · rw [if_neg hover, if_neg (by omega), Nat.min_eq_left (by omega)]
      rfl
  · rw [if_pos (by omega), if_neg hstart]
    rfl

theorem clamped {fileSize : ℕ} : ∀ {ranges : List CoalescedRange},
    (∀ r ∈ ranges, 0 < r.byteLength ∧ r.byteStart + r.byteLength < 2 ^ 64) →
      Clamped fileSize ranges (clampRanges ranges fileSize)
  | [], _ => .nil
  | r :: ranges, h => by
    obtain ⟨hlen, hend⟩ := h r (by simp)
    have ih := @clamped fileSize ranges fun s hs => h s (List.mem_cons_of_mem _ hs)
    have hcases := @clampRange_cases fileSize r hend hlen
    have hmeets : (r.bytes ∩ Set.Iio fileSize).Nonempty ↔ r.byteStart < fileSize := by
      constructor
      · rintro ⟨b, hb, hfile⟩
        exact hb.1.trans_lt hfile
      · exact fun hlt => ⟨r.byteStart, ⟨Nat.le_refl _, by omega⟩, hlt⟩
    rw [Clamped, clampRanges] at ih ⊢
    by_cases hlt : r.byteStart < fileSize
    · rw [if_pos hlt] at hcases
      rw [List.filter_cons, if_pos (@decide_eq_true _ (Classical.propDecidable _) (hmeets.mpr hlt)),
        List.filterMap_cons_some (f := fun r => (clampRange fileSize r).toOption) hcases]
      refine .cons ⟨rfl, rfl, rfl, ?_⟩ ih
      ext b
      simp only [CoalescedRange.bytes, Set.mem_inter_iff, Set.mem_Ico, Set.mem_Iio]
      omega
    · rw [if_neg hlt] at hcases
      have hnot : ¬ @decide (r.bytes ∩ Set.Iio fileSize).Nonempty (Classical.propDecidable _) = true := by
        rw [@decide_eq_true_iff _ (Classical.propDecidable _)]
        exact hmeets.not.mpr hlt
      rw [List.filter_cons, if_neg hnot, List.filterMap_cons_none (f := fun r => (clampRange fileSize r).toOption) hcases]
      exact ih

/-- The ranges cover the requested pages and no gap that is too long; clamped, they are what lies in the file. -/
theorem coalesce_exact (indices : List UInt32) (gapPages pageSize fileSize : ℕ) (hpage : 0 < pageSize)
    (hgap : gapPages < 2 ^ 32) (hlast : ∀ p ∈ indices, p.toNat < 2 ^ 32 - 1)
    (hend : ∀ p ∈ indices, (p.toNat + 1) * pageSize < 2 ^ 64) :
    Coalesced indices gapPages pageSize (coalescePageIndices indices gapPages pageSize) ∧
      Clamped fileSize (coalescePageIndices indices gapPages pageSize)
        (clampRanges (coalescePageIndices indices gapPages pageSize) fileSize) := by
  have hranges := coalesced hgap hlast hend
  refine ⟨hranges, clamped fun r hr => ?_⟩
  obtain ⟨hstart, hstop⟩ := hranges.bytes r hr
  have hle := UInt32.le_iff_toNat_le.mp (hranges.ordered r hr)
  have hlt : r.pageStart.toNat * pageSize < (r.pageEnd.toNat + 1) * pageSize :=
    Nat.mul_lt_mul_of_pos_right (by omega) hpage
  exact ⟨by omega, hstop ▸ hend _ (hranges.requested r hr).2⟩

/-- Pages 9, 4, 5 and 4 with a gap of one: two ranges, and the file ends within the first of them. -/
theorem coalesce_exact_two : Coalesced [9, 4, 5, 4] 1 16 [⟨4, 5, 64, 32⟩, ⟨9, 9, 144, 16⟩] ∧
    Clamped 70 [⟨4, 5, 64, 32⟩, ⟨9, 9, 144, 16⟩] [⟨4, 5, 64, 6⟩] := by
  have h := coalesce_exact [9, 4, 5, 4] 1 16 70 (by decide) (by decide) (by simp) (by simp)
  have hranges : coalescePageIndices [9, 4, 5, 4] 1 16 = [⟨4, 5, 64, 32⟩, ⟨9, 9, 144, 16⟩] := by decide +kernel
  rw [hranges] at h
  exact h

end

end Nyxis

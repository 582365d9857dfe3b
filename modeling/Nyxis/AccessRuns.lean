import Nyxis.Warmup

/-!
# AccessRuns — what the detector says over a run of accesses

The detector counts short and long jumps between accesses in two 32-bit counters that saturate, and adds them without a
guard.

* `counters_observed`: what the counters say after a run.
* `detector_well_behaved`: no sum overflows where fewer than `2 ^ 32` jumps are counted.
-/

namespace Nyxis

open Lib Lib.Outcome

namespace AccessPatternDetector

/-- `pattern` where overflow is checked. -/
def checkedPattern (a : AccessPatternDetector) : Opt AccessPattern := do
  demand (a.sequentialRuns + a.randomJumps < 2 ^ 32)
  .ok a.pattern

def predictNext (a : AccessPatternDetector) (depth recordCount : ℕ) : Opt (List ℕ) := do
  let pattern ← a.checkedPattern
  if pattern ≠ .sequential ∨ a.lastIndex < 0 then .ok []
  else do
    let start ← usizeAdd a.lastIndex.toInt.toNat 1
    let next ← (List.range depth).mapM fun i => do
      let idx ← usizeAdd start i
      .ok (if idx < recordCount then some idx else none)
    .ok (next.filterMap id)

/-- The detector after a run. -/
def after (indices : List ℕ) : AccessPatternDetector := indices.foldl observe new

end AccessPatternDetector

open AccessPatternDetector

/-! ## Jumps -/

def distance (i j : ℕ) : ℕ := ((j : ℤ) - i).natAbs

/-- The distances between accesses that follow one another. -/
def jumps (indices : List ℕ) : List ℕ := List.zipWith distance indices indices.tail

def shortJumps (indices : List ℕ) : ℕ := (jumps indices).countP (· ≤ sequentialThreshold)

def longJumps (indices : List ℕ) : ℕ := (jumps indices).countP (randomThreshold < ·)

theorem jumps_concat (indices : List ℕ) (i j : ℕ) : jumps (indices ++ [i] ++ [j]) = jumps (indices ++ [i]) ++ [distance i j] := by
  induction indices with
  | nil => rfl
  | cons k indices ih =>
    cases indices with
    | nil => rfl
    | cons l indices =>
      simp only [jumps, List.cons_append, List.tail_cons, List.zipWith_cons_cons] at ih ⊢
      rw [ih]

/-! ## The counters -/

theorem after_concat (indices : List ℕ) (j : ℕ) : after (indices ++ [j]) = (after indices).observe j := by
  rw [after, List.foldl_append]
  rfl

theorem tick32_min (n : ℕ) : tick32 (min n (2 ^ 32 - 1)) = min (n + 1) (2 ^ 32 - 1) := by
  unfold tick32
  omega

/-- The counters hold the number of short and of long jumps, as far as 32 bits go. -/
structure Counted (indices : List ℕ) (a : AccessPatternDetector) : Prop where
  short : a.sequentialRuns = min (shortJumps indices) (2 ^ 32 - 1)
  long : a.randomJumps = min (longJumps indices) (2 ^ 32 - 1)
  last : a.lastIndex.toInt = (indices.getLast?.map Int.ofNat).getD (-1)

/-- An access behind the first one. -/
theorem Counted.observe {indices : List ℕ} {i j : ℕ} {a : AccessPatternDetector} (h : Counted (indices ++ [i]) a)
    (hj : j < 2 ^ 63) : Counted (indices ++ [i] ++ [j]) (a.observe j) := by
  have hlast : a.lastIndex.toInt = i := by
    rw [h.last, List.getLast?_append, List.getLast?_singleton]
    rfl
  have hnonneg : ¬ a.lastIndex < 0 := by
    rw [Int64.lt_iff_toInt_lt, hlast]
    exact not_lt.mpr (Int.natCast_nonneg i)
  have hidx : (Int64.ofNat j).toInt = j := Int64.toInt_ofNat_of_lt hj
  have hnext : (Int64.ofNat j).toInt = ((indices ++ [i] ++ [j]).getLast?.map Int.ofNat).getD (-1) := by
    rw [hidx, List.getLast?_append, List.getLast?_singleton]
    rfl
  have hshort : shortJumps (indices ++ [i] ++ [j]) =
      shortJumps (indices ++ [i]) + if distance i j ≤ sequentialThreshold then 1 else 0 := by
    rw [shortJumps, jumps_concat, List.countP_append, List.countP_singleton, shortJumps]
    simp
  have hlong : longJumps (indices ++ [i] ++ [j]) =
      longJumps (indices ++ [i]) + if randomThreshold < distance i j then 1 else 0 := by
    rw [longJumps, jumps_concat, List.countP_append, List.countP_singleton, longJumps]
    simp
  have hthresholds : sequentialThreshold < randomThreshold := by decide
  rw [AccessPatternDetector.observe, if_neg hnonneg, hidx, hlast]
  change Counted _ (if distance i j ≤ sequentialThreshold then _ else if distance i j > randomThreshold then _ else _)
  by_cases hnear : distance i j ≤ sequentialThreshold
  · rw [if_pos hnear]
    refine ⟨?_, ?_, hnext⟩
    · rw [hshort, if_pos hnear, ← tick32_min, ← h.short]
    · rw [hlong, if_neg (by omega), Nat.add_zero]
      exact h.long
  · rw [if_neg hnear]
    rw [if_neg hnear, Nat.add_zero] at hshort
    by_cases hfar : distance i j > randomThreshold
    · rw [if_pos hfar]
      refine ⟨hshort ▸ h.short, ?_, hnext⟩
      rw [hlong, if_pos hfar, ← tick32_min, ← h.long]
    · rw [if_neg hfar]
      refine ⟨hshort ▸ h.short, ?_, hnext⟩
      rw [hlong, if_neg hfar, Nat.add_zero]
      exact h.long

/-- What the counters say after a run. -/
theorem counters_observed {indices : List ℕ} (h : ∀ i ∈ indices, i < 2 ^ 63) : Counted indices (after indices) := by
  induction indices using List.reverseRecOn with
  | nil => exact ⟨rfl, rfl, rfl⟩
  | append_singleton indices j ih =>
    have hj := h j (by simp)
    rw [after_concat]
    rcases List.eq_nil_or_concat indices with rfl | ⟨rest, i, rfl⟩
    · exact ⟨rfl, rfl, Int64.toInt_ofNat_of_lt hj⟩
    · rw [List.concat_eq_append] at ih h ⊢
      exact Counted.observe (ih fun k hk => h k (List.mem_append_left _ hk)) hj

theorem jumps_append (done more : List ℕ) : jumps done <+: jumps (done ++ more) := by
  induction more using List.reverseRecOn with
  | nil => rw [List.append_nil]
  | append_singleton more j ih =>
    refine ih.trans ?_
    rw [← List.append_assoc]
    rcases List.eq_nil_or_concat (done ++ more) with hnil | ⟨rest, i, hlast⟩
    · rw [hnil]
      exact List.nil_prefix
    · rw [hlast, List.concat_eq_append, jumps_concat]
      exact List.prefix_append _ _

/-! ## Runs -/

/-- In every state of the run no sum overflows, a pattern stays known, and the predictions of a sequential pattern follow
the last access. -/
structure WellBehaved (indices : List ℕ) (depth recordCount : ℕ) : Prop where
  pattern : ∀ done, done <+: indices → ∃ p, (after done).checkedPattern = .ok p
  predict : ∀ done, done <+: indices → ∃ next, (after done).predictNext depth recordCount = .ok next
  known : ∀ done more, done ++ more <+: indices → (after done).checkedPattern ≠ .ok .unknown →
    (after (done ++ more)).checkedPattern ≠ .ok .unknown
  consecutive : ∀ done last, done ++ [last] <+: indices → (after (done ++ [last])).checkedPattern = .ok .sequential →
    (after (done ++ [last])).predictNext depth recordCount =
      .ok (List.range' (last + 1) (min depth (recordCount - (last + 1))))

/-- Fewer than `2 ^ 32` jumps are counted, and no prediction reaches `2 ^ 64`. -/
structure FewJumps (indices : List ℕ) (depth : ℕ) : Prop where
  jumps : shortJumps indices + longJumps indices < 2 ^ 32
  depth : ∀ i ∈ indices, i + depth < 2 ^ 64

theorem FewJumps.of_prefix {done indices : List ℕ} {depth : ℕ} (h : FewJumps indices depth) (hpre : done <+: indices) :
    FewJumps done depth := by
  obtain ⟨more, rfl⟩ := hpre
  have hsub := (jumps_append done more).sublist
  have hshort : shortJumps done ≤ shortJumps (done ++ more) := hsub.countP_le
  have hlong : longJumps done ≤ longJumps (done ++ more) := hsub.countP_le
  have hjumps := h.jumps
  exact ⟨by omega, fun i hi => h.depth i (List.mem_append_left more hi)⟩

/-- The predictions, where none overflows. -/
theorem predictions (start recordCount : ℕ) : ∀ depth,
    ((List.range depth).map fun i => if start + i < recordCount then some (start + i) else none).filterMap id =
      List.range' start (min depth (recordCount - start)) := by
  intro depth
  induction depth with
  | zero => simp
  | succ depth ih =>
    rw [List.range_succ, List.map_append, List.filterMap_append, ih]
    by_cases hlt : start + depth < recordCount
    · rw [Nat.min_eq_left (by omega), Nat.min_eq_left (by omega), List.range'_concat]
      simp [hlt]
    · rw [Nat.min_eq_right (by omega), Nat.min_eq_right (by omega)]
      simp [hlt]

section

variable {indices : List ℕ} {depth : ℕ} (hsmall : ∀ i ∈ indices, i < 2 ^ 63) (hfew : FewJumps indices depth)

include hsmall hfew

theorem counters_exact : (after indices).sequentialRuns = shortJumps indices ∧ (after indices).randomJumps = longJumps indices := by
  have hcount := counters_observed hsmall
  have hjumps := hfew.jumps
  exact ⟨by rw [hcount.short]; omega, by rw [hcount.long]; omega⟩

theorem checkedPattern_eq : (after indices).checkedPattern = .ok (after indices).pattern := by
  obtain ⟨hshort, hlong⟩ := counters_exact hsmall hfew
  rw [checkedPattern, hshort, hlong, demand_of hfew.jumps, ok_bind]

/-- A pattern is known from eight jumps on. -/
theorem pattern_unknown_iff : (after indices).checkedPattern = .ok .unknown ↔ shortJumps indices + longJumps indices < 8 := by
  obtain ⟨hshort, hlong⟩ := counters_exact hsmall hfew
  have htotal : ((after indices).sequentialRuns + (after indices).randomJumps) % 2 ^ 32 =
      shortJumps indices + longJumps indices := by
    rw [hshort, hlong, Nat.mod_eq_of_lt hfew.jumps]
  rw [checkedPattern_eq hsmall hfew, AccessPatternDetector.pattern, htotal, show minObservations = 8 from rfl]
  by_cases hlt : shortJumps indices + longJumps indices < 8
  · rw [if_pos hlt]
    exact iff_of_true rfl hlt
  · rw [if_neg hlt]
    refine iff_of_false (fun h => ?_) hlt
    split_ifs at h <;> cases h

/-- Predictions after the last access. -/
theorem predictNext_eq (recordCount : ℕ) : (after indices).predictNext depth recordCount =
    .ok (match indices.getLast? with
      | some last => if (after indices).pattern = .sequential then List.range' (last + 1) (min depth (recordCount - (last + 1))) else []
      | none => []) := by
  have hcount := (counters_observed hsmall).last
  rw [predictNext, checkedPattern_eq hsmall hfew, ok_bind]
  cases hlast : indices.getLast? with
  | none =>
    rw [hlast] at hcount
    have hneg : (after indices).lastIndex < 0 := by
      rw [Int64.lt_iff_toInt_lt, hcount]
      decide
    rw [if_pos (.inr hneg)]
  | some last =>
    have hmem := List.mem_of_getLast? hlast
    have hdepth := hfew.depth last hmem
    have hlt := hsmall last hmem
    rw [hlast] at hcount
    have hnonneg : ¬ (after indices).lastIndex < 0 := by
      rw [Int64.lt_iff_toInt_lt, hcount]
      exact not_lt.mpr (Int.natCast_nonneg last)
    have htoNat : (after indices).lastIndex.toInt.toNat = last := by rw [hcount]; rfl
    dsimp only
    by_cases hseq : (after indices).pattern = .sequential
    · rw [if_neg (by simp [hseq, hnonneg]), if_pos hseq, htoNat, usizeAdd_of (by omega), ok_bind]
      have hnext : ((List.range depth).mapM fun i => do
          let idx ← usizeAdd (last + 1) i
          .ok (if idx < recordCount then some idx else none) : Opt (List (Option ℕ))) =
            .ok ((List.range depth).map fun i => if last + 1 + i < recordCount then some (last + 1 + i) else none) := by
        refine mapM_eq_ok.mpr (List.forall₂_map_right_iff.mpr (List.forall₂_same.mpr fun i hi => ?_))
        have := List.mem_range.mp hi
        rw [usizeAdd_of (by omega), ok_bind]
      rw [hnext, ok_bind, predictions]
    · rw [if_pos (.inl hseq), if_neg hseq]

end

/-- A run is well behaved where few jumps are counted. -/
theorem detector_well_behaved {indices : List ℕ} {depth : ℕ} (hsmall : ∀ i ∈ indices, i < 2 ^ 63)
    (hfew : FewJumps indices depth) (recordCount : ℕ) : WellBehaved indices depth recordCount := by
  have hstate : ∀ done, done <+: indices → (∀ i ∈ done, i < 2 ^ 63) ∧ FewJumps done depth := fun done hpre =>
    ⟨fun i hi => hsmall i (hpre.subset hi), hfew.of_prefix hpre⟩
  refine ⟨fun done hpre => ?_, fun done hpre => ?_, fun done more hpre hknown => ?_, fun done last hpre hseq => ?_⟩
  · obtain ⟨hs, hf⟩ := hstate done hpre
    exact ⟨_, checkedPattern_eq hs hf⟩
  · obtain ⟨hs, hf⟩ := hstate done hpre
    exact ⟨_, predictNext_eq hs hf recordCount⟩
  · obtain ⟨hs, hf⟩ := hstate (done ++ more) hpre
    obtain ⟨hs', hf'⟩ := hstate done ((List.prefix_append done more).trans hpre)
    have hsub := (jumps_append done more).sublist
    have hshort : shortJumps done ≤ shortJumps (done ++ more) := hsub.countP_le
    have hlong : longJumps done ≤ longJumps (done ++ more) := hsub.countP_le
    rw [Ne, pattern_unknown_iff hs' hf'] at hknown
    rw [Ne, pattern_unknown_iff hs hf]
    omega
  · obtain ⟨hs, hf⟩ := hstate _ hpre
    have hpattern := ok.inj ((checkedPattern_eq hs hf).symm.trans hseq)
    rw [predictNext_eq hs hf, List.getLast?_append, List.getLast?_singleton]
    simp only [Option.some_or, hpattern, if_true]

theorem detector_well_behaved_three : WellBehaved [5, 6, 200] 4 1000 :=
  detector_well_behaved (by simp) ⟨by decide, by simp⟩ 1000

theorem jumps_replicate (n : ℕ) : jumps (List.replicate n 0 ++ [0]) = List.replicate n 0 := by
  rw [← List.replicate_succ', jumps, List.replicate_succ, List.tail_cons, ← List.replicate_succ, List.zipWith_replicate]
  simp [distance]

/-- Accesses to one record fill the first counter, and one far away makes the sum overflow. -/
theorem overflow_of_le {n : ℕ} (h : 2 ^ 32 - 1 ≤ n) : (after (List.replicate n 0 ++ [0] ++ [1000])).checkedPattern = .panic := by
  have hsmall : ∀ i ∈ List.replicate n 0 ++ [0] ++ [1000], i < 2 ^ 63 := by
    intro i hi
    simp only [List.mem_append, List.mem_replicate, List.mem_singleton] at hi
    omega
  have hcount := counters_observed hsmall
  have hshort : shortJumps (List.replicate n 0 ++ [0] ++ [1000]) = n := by
    rw [shortJumps, jumps_concat, jumps_replicate, List.countP_append, List.countP_replicate]
    simp [distance, sequentialThreshold]
  have hlong : longJumps (List.replicate n 0 ++ [0] ++ [1000]) = 1 := by
    rw [longJumps, jumps_concat, jumps_replicate, List.countP_append, List.countP_replicate]
    simp [distance, randomThreshold]
  have hsum : ¬ (after (List.replicate n 0 ++ [0] ++ [1000])).sequentialRuns +
      (after (List.replicate n 0 ++ [0] ++ [1000])).randomJumps < 2 ^ 32 := by
    rw [hcount.short, hcount.long, hshort, hlong]
    omega
  rw [checkedPattern, demand, if_neg hsum, panic_bind]

/-- After `2 ^ 32` accesses to one record and one far away there is no pattern. -/
theorem detector_overflows : ¬ WellBehaved (List.replicate (2 ^ 32) 0 ++ [1000]) 4 1000 := by
  obtain ⟨n, hn⟩ : ∃ n, n + 1 = 2 ^ 32 := ⟨2 ^ 32 - 1, rfl⟩
  rw [← hn, List.replicate_succ']
  intro h
  obtain ⟨p, hp⟩ := h.pattern _ (List.prefix_refl _)
  cases hp.symm.trans (overflow_of_le (by omega))

end Nyxis

import Mathlib.Data.List.Chain

/-!
# Lib.Clusters — an ascending list cut into clusters

`Clusters near l spans`: the list is cut between neighbours that are not near, and `spans` are the first and the
last element of each piece.  The elements ascend by their position `pos`.
-/

namespace Nyxis.Lib

/-- The spans of the pieces of a list that is cut between neighbours that are not near. -/
inductive Clusters {α : Type} (near : α → α → Prop) : List α → List (α × α) → Prop where
  | one (x : α) : Clusters near [x] [(x, x)]
  | near {x y e : α} {l : List α} {spans : List (α × α)} (hxy : near x y) (h : Clusters near (y :: l) ((y, e) :: spans)) :
    Clusters near (x :: y :: l) ((x, e) :: spans)
  | far {x y : α} {l : List α} {spans : List (α × α)} (hxy : ¬ near x y) (h : Clusters near (y :: l) spans) :
    Clusters near (x :: y :: l) ((x, x) :: spans)

namespace Clusters

variable {α : Type} {near : α → α → Prop} {l : List α} {spans : List (α × α)}

theorem head_start (h : Clusters near l spans) : ∃ x rest e tail, l = x :: rest ∧ spans = (x, e) :: tail := by
  cases h with
  | one x => exact ⟨x, [], x, [], rfl, rfl⟩
  | near hxy h => exact ⟨_, _, _, _, rfl, rfl⟩
  | far hxy h => exact ⟨_, _, _, _, rfl, rfl⟩

/-- A span starts and ends at elements of the list. -/
theorem ends_mem (h : Clusters near l spans) : ∀ s ∈ spans, s.1 ∈ l ∧ s.2 ∈ l := by
  induction h with
  | one x => simp
  | @near x y e l spans hxy h ih =>
    intro s hs
    rcases List.mem_cons.mp hs with rfl | hs
    · exact ⟨by simp, List.mem_cons_of_mem _ (ih (y, e) (by simp)).2⟩
    · obtain ⟨h1, h2⟩ := ih s (List.mem_cons_of_mem _ hs)
      exact ⟨List.mem_cons_of_mem _ h1, List.mem_cons_of_mem _ h2⟩
  | far hxy h ih =>
    intro s hs
    rcases List.mem_cons.mp hs with rfl | hs
    · simp
    · exact ⟨List.mem_cons_of_mem _ (ih s hs).1, List.mem_cons_of_mem _ (ih s hs).2⟩

/-- Where one span ends and the next one starts is not near. -/
theorem apart (h : Clusters near l spans) : spans.IsChain fun s t => ¬ near s.2 t.1 := by
  induction h with
  | one x => exact List.isChain_singleton _
  | @near x y e l spans hxy h ih =>
    cases spans with
    | nil => exact List.isChain_singleton _
    | cons t spans =>
      rw [List.isChain_cons_cons] at ih ⊢
      exact ih
  | far hxy h ih =>
    obtain ⟨_, _, e, tail, hl, rfl⟩ := h.head_start
    cases hl
    exact List.isChain_cons_cons.mpr ⟨hxy, ih⟩

section Ascending

variable {pos : α → ℕ}

theorem start_le_end (h : Clusters near l spans) (hl : l.Pairwise fun a b => pos a < pos b) :
    ∀ s ∈ spans, pos s.1 ≤ pos s.2 := by
  induction h with
  | one x => simp
  | @near x y e l spans hxy h ih =>
    rw [List.pairwise_cons] at hl
    intro s hs
    rcases List.mem_cons.mp hs with rfl | hs
    · exact (Nat.le_of_lt (hl.1 y (by simp))).trans (ih hl.2 (y, e) (by simp))
    · exact ih hl.2 s (List.mem_cons_of_mem _ hs)
  | far hxy h ih =>
    intro s hs
    rcases List.mem_cons.mp hs with rfl | hs
    · exact Nat.le_refl _
    · exact ih (List.pairwise_cons.mp hl).2 s hs

theorem disjoint (h : Clusters near l spans) (hl : l.Pairwise fun a b => pos a < pos b) :
    spans.Pairwise fun s t => pos s.2 < pos t.1 := by
  induction h with
  | one x => exact List.pairwise_singleton _ _
  | @near x y e l spans hxy h ih =>
    have ih := ih (List.pairwise_cons.mp hl).2
    rw [List.pairwise_cons] at ih ⊢
    exact ih
  | far hxy h ih =>
    rw [List.pairwise_cons] at hl
    exact List.pairwise_cons.mpr ⟨fun t ht => hl.1 t.1 (h.ends_mem t ht).1, ih hl.2⟩

/-- Every element is in a span. -/
theorem covers (h : Clusters near l spans) (hl : l.Pairwise fun a b => pos a < pos b) :
    ∀ x ∈ l, ∃ s ∈ spans, pos s.1 ≤ pos x ∧ pos x ≤ pos s.2 := by
  induction h with
  | one x => simp
  | @near x y e l spans hxy h ih =>
    rw [List.pairwise_cons] at hl
    have hxy : pos x < pos y := hl.1 y (by simp)
    intro z hz
    rcases List.mem_cons.mp hz with rfl | hz
    · have hend : pos y ≤ pos e := h.start_le_end hl.2 (y, e) (by simp)
      exact ⟨(z, e), by simp, Nat.le_refl _, by dsimp only; omega⟩
    · obtain ⟨s, hs, h1, h2⟩ := ih hl.2 z hz
      rcases List.mem_cons.mp hs with rfl | hs
      · exact ⟨(x, e), by simp, hxy.le.trans h1, h2⟩
      · exact ⟨s, List.mem_cons_of_mem _ hs, h1, h2⟩
  | @far x y l spans hxy h ih =>
    intro z hz
    rcases List.mem_cons.mp hz with rfl | hz
    · exact ⟨(z, z), by simp, Nat.le_refl _, Nat.le_refl _⟩
    · obtain ⟨s, hs, h1⟩ := ih (List.pairwise_cons.mp hl).2 z hz
      exact ⟨s, List.mem_cons_of_mem _ hs, h1⟩

/-- Within a span, the next element is near. -/
theorem step (h : Clusters near l spans) (hl : l.Pairwise fun a b => pos a < pos b) :
    ∀ s ∈ spans, ∀ x ∈ l, pos s.1 ≤ pos x → pos x < pos s.2 → ∃ y ∈ l, pos x < pos y ∧ pos y ≤ pos s.2 ∧ near x y := by
  induction h with
  | one x =>
    intro s hs z hz h1 h2
    simp only [List.mem_singleton] at hs hz
    subst hs hz
    exact absurd h2 (Nat.lt_irrefl _)
  | @near x y e l spans hxy h ih =>
    rw [List.pairwise_cons] at hl
    intro s hs z hz h1 h2
    have hlast := h.start_le_end hl.2 (y, e) (by simp)
    rcases List.mem_cons.mp hz with rfl | hz
    · rcases List.mem_cons.mp hs with rfl | hs
      · exact ⟨y, by simp, hl.1 y (by simp), hlast, hxy⟩
      -- a later span starts behind the first element
      · have := hl.1 s.1 (h.ends_mem s (List.mem_cons_of_mem _ hs)).1
        omega
    · have hstep : ∃ w ∈ y :: l, pos z < pos w ∧ pos w ≤ pos s.2 ∧ near z w := by
        rcases List.mem_cons.mp hs with rfl | hs
        · refine ih hl.2 (y, e) (by simp) z hz ?_ h2
          rcases List.mem_cons.mp hz with rfl | hz
          · exact Nat.le_refl _
          · exact Nat.le_of_lt ((List.pairwise_cons.mp hl.2).1 z hz)
        · exact ih hl.2 s (List.mem_cons_of_mem _ hs) z hz h1 h2
      obtain ⟨w, hw, hrest⟩ := hstep
      exact ⟨w, List.mem_cons_of_mem _ hw, hrest⟩
  | @far x y l spans hxy h ih =>
    rw [List.pairwise_cons] at hl
    intro s hs z hz h1 h2
    rcases List.mem_cons.mp hs with rfl | hs'
    · exact absurd h2 (Nat.not_lt.mpr h1)
    rcases List.mem_cons.mp hz with rfl | hz
    · have := hl.1 s.1 (h.ends_mem s hs').1
      omega
    · obtain ⟨w, hw, hrest⟩ := ih hl.2 s hs' z hz h1 h2
      exact ⟨w, List.mem_cons_of_mem _ hw, hrest⟩

end Ascending

end Clusters

end Nyxis.Lib

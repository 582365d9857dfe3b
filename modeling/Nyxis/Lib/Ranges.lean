import Mathlib.Data.Int.Order.Basic
import Mathlib.Data.List.Basic

/-!
# Lib.Ranges — a list cut into consecutive groups

`groupStart gs k` is the index in `gs.flatten` at which the `k`-th group starts.  Every index lies in
a group (`exists_group`), starts never decrease (`groupStart_mono`), so an index decides on which side
of a group the group that holds it lies (`lt_of_index_lt`, `lt_of_le_index`): what a bisection needs.
`bisectSums` are the sums of bounds a bisection computes, for machines on which these may overflow.
-/

namespace Nyxis.Lib

variable {α : Type}

/-- The index at which group `k` starts. -/
def groupStart (gs : List (List α)) (k : ℕ) : ℕ := ((gs.take k).flatten).length

@[simp] theorem groupStart_zero (gs : List (List α)) : groupStart gs 0 = 0 := by simp [groupStart]

theorem groupStart_length (gs : List (List α)) : groupStart gs gs.length = gs.flatten.length := by
  simp [groupStart]

theorem groupStart_succ {gs : List (List α)} {k : ℕ} {g : List α} (h : gs[k]? = some g) :
    groupStart gs (k + 1) = groupStart gs k + g.length := by
  rw [groupStart, List.take_add_one, h, List.flatten_append, List.length_append]
  simp [groupStart]

theorem groupStart_mono (gs : List (List α)) {j k : ℕ} (h : j ≤ k) :
    groupStart gs j ≤ groupStart gs k := by
  have hsplit : gs.take k = gs.take j ++ (gs.take k).drop j := by
    conv_lhs => rw [← List.take_append_drop j (gs.take k)]
    rw [List.take_take, Nat.min_eq_left h]
  rw [groupStart, groupStart, hsplit, List.flatten_append, List.length_append]
  exact Nat.le_add_right _ _

theorem groupStart_append_left {gs : List (List α)} {k : ℕ} (h : k ≤ gs.length)
    (hs : List (List α)) : groupStart (gs ++ hs) k = groupStart gs k := by
  rw [groupStart, List.take_append_of_le_length h, groupStart]

/-- Every index of the flattened list lies in a group. -/
theorem exists_group : ∀ {gs : List (List α)} {i : ℕ} {x : α}, gs.flatten[i]? = some x →
    ∃ k j g, gs[k]? = some g ∧ g[j]? = some x ∧ i = groupStart gs k + j
  | [], i, x, h => by simp at h
  | g :: gs, i, x, h => by
    rw [List.flatten_cons] at h
    by_cases hi : i < g.length
    · rw [List.getElem?_append_left hi] at h
      exact ⟨0, i, g, rfl, h, by simp⟩
    · rw [List.getElem?_append_right (by omega)] at h
      obtain ⟨k, j, g', hk, hj, hidx⟩ := exists_group h
      refine ⟨k + 1, j, g', by simpa using hk, hj, ?_⟩
      have hcons : groupStart (g :: gs) (k + 1) = g.length + groupStart gs k := by
        simp [groupStart]
      omega

/-- An index below the start of a group lies in an earlier group. -/
theorem lt_of_index_lt {gs : List (List α)} {k j m : ℕ}
    (hm : groupStart gs k + j < groupStart gs m) : k < m := by
  by_contra hle
  have := groupStart_mono gs (Nat.le_of_not_lt hle)
  omega

/-- An index behind a group lies in a later group. -/
theorem lt_of_le_index {gs : List (List α)} {k j m : ℕ} {g : List α} (hk : gs[k]? = some g)
    (hj : j < g.length) (hm : groupStart gs (m + 1) ≤ groupStart gs k + j) : m < k := by
  by_contra hle
  have h1 := groupStart_succ hk
  have h2 := groupStart_mono gs (show k + 1 ≤ m + 1 by omega)
  omega

/-- The sums `lo + hi` that a bisection of the indices from `lo` to `hi` computes on its way to `k`;
the first argument bounds its rounds. -/
def bisectSums (k : ℕ) : ℕ → ℤ → ℤ → List ℤ
  | 0, _, _ => []
  | fuel + 1, lo, hi =>
    if lo ≤ hi then
      (lo + hi) ::
        if k < (lo + hi) / 2 then bisectSums k fuel lo ((lo + hi) / 2 - 1)
        else if (lo + hi) / 2 < k then bisectSums k fuel ((lo + hi) / 2 + 1) hi
        else []
    else []

/-- No sum exceeds that of the upper bound with itself. -/
theorem bisectSums_le {k : ℕ} : ∀ {fuel : ℕ} {lo hi : ℤ}, ∀ s ∈ bisectSums k fuel lo hi, s ≤ hi + hi
  | 0, _, _, s, hs => by simp [bisectSums] at hs
  | fuel + 1, lo, hi, s, hs => by
    rw [bisectSums] at hs
    split at hs
    · rename_i hle
      rcases List.mem_cons.mp hs with rfl | hs
      · omega
      · split at hs
        · have := bisectSums_le s hs
          omega
        · split at hs
          · exact bisectSums_le s hs
          · simp at hs
    · simp at hs

end Nyxis.Lib

import Mathlib.Data.List.Dedup
import Mathlib.Data.List.Nodup

/-!
# Lib.Ranks — ranks in lists of numbers

The rank of `s` in a list is the number of elements below it, `l.countP (· < s)`; in a sorted list the
first `s` stands there.  Where elements repeat, fewer different numbers than elements may be below `s`.

* `getElem?_rank`, `lt_of_lt_rank`: what stands at the rank of an element, and in front of it.
* `distinct_eq_rank_iff`: the different numbers below `s` are as many as the elements exactly if none
  of them repeats.
-/

namespace Nyxis.Lib

/-- At its rank stands the first `s` of a sorted list. -/
theorem getElem?_rank {s : ℕ} : ∀ {l : List ℕ}, l.Pairwise (· ≤ ·) → s ∈ l → l[l.countP (· < s)]? = some s
  | [], _, hs => absurd hs List.not_mem_nil
  | a :: l, h, hs => by
    rw [List.countP_cons]
    by_cases ha : a < s
    · have hl : s ∈ l := (List.mem_cons.mp hs).resolve_left (Nat.ne_of_gt ha)
      rw [if_pos (decide_eq_true ha), List.getElem?_cons_succ, getElem?_rank h.of_cons hl]
    · have hle : ∀ b ∈ l, a ≤ b := fun b hb => List.rel_of_pairwise_cons h hb
      have hnone : l.countP (· < s) = 0 := by
        rw [List.countP_eq_zero]
        intro b hb
        have := hle b hb
        rw [decide_eq_true_iff]
        omega
      have hsa : s = a := by
        rcases List.mem_cons.mp hs with hs | hs
        · exact hs
        · have := hle s hs
          omega
      rw [if_neg (fun h => ha (of_decide_eq_true h)), hnone, hsa]
      rfl

/-- In front of the rank of `s` stand smaller numbers. -/
theorem lt_of_lt_rank {s a : ℕ} : ∀ {l : List ℕ} {i : ℕ}, l.Pairwise (· ≤ ·) → i < l.countP (· < s) →
    l[i]? = some a → a < s
  | [], _, _, hi, _ => absurd hi (Nat.not_lt_zero _)
  | b :: l, 0, h, hi, hget => by
    obtain rfl : b = a := by simpa using hget
    obtain ⟨c, hc, hcs⟩ := List.countP_pos_iff.mp hi
    have hle : b ≤ c := by
      rcases List.mem_cons.mp hc with rfl | hc
      · exact Nat.le_refl c
      · exact List.rel_of_pairwise_cons h hc
    exact Nat.lt_of_le_of_lt hle (of_decide_eq_true hcs)
  | b :: l, i + 1, h, hi, hget => by
    rw [List.getElem?_cons_succ] at hget
    refine lt_of_lt_rank h.of_cons ?_ hget
    rw [List.countP_cons] at hi
    split at hi
    · omega
    · omega

/-- The different elements below `s`, counted among the numbers below `s`. -/
theorem distinct_eq_dedup (l : List ℕ) (s : ℕ) :
    (List.range s).countP (fun i => l.any (· == i)) = (l.filter (· < s)).dedup.length := by
  rw [List.countP_eq_length_filter]
  refine List.Perm.length_eq ((List.perm_ext_iff_of_nodup (List.nodup_range.filter _)
    (List.nodup_dedup _)).mpr fun i => ?_)
  rw [List.mem_filter, List.mem_dedup, List.mem_filter, List.mem_range, List.any_eq_true, decide_eq_true_iff]
  constructor
  · rintro ⟨hi, t, ht, hti⟩
    exact ⟨beq_iff_eq.mp hti ▸ ht, hi⟩
  · rintro ⟨hi, his⟩
    exact ⟨his, i, hi, beq_self_eq_true i⟩

theorem distinct_le_rank (l : List ℕ) (s : ℕ) :
    (List.range s).countP (fun i => l.any (· == i)) ≤ l.countP (· < s) := by
  rw [distinct_eq_dedup, List.countP_eq_length_filter]
  exact (List.dedup_sublist _).length_le

/-- Where elements below `s` repeat, there are fewer different ones. -/
theorem distinct_eq_rank_iff (l : List ℕ) (s : ℕ) :
    (List.range s).countP (fun i => l.any (· == i)) = l.countP (· < s) ↔ (l.filter (· < s)).Nodup := by
  rw [distinct_eq_dedup, List.countP_eq_length_filter]
  constructor
  · intro h
    rw [← List.dedup_eq_self]
    exact (List.dedup_sublist _).eq_of_length h
  · intro h
    rw [List.dedup_eq_self.mpr h]

end Nyxis.Lib

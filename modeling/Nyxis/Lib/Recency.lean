import Mathlib.Data.List.Basic
import Mathlib.Data.List.Infix
import Mathlib.Data.List.Nodup
import Mathlib.Data.List.TakeDrop

/-!
# Lib.Recency — the keys that a cache of the most recently used ones keeps

A cache of at most `k` keys is the list of its keys, the latest used first.  A use moves the key to the front and drops
what is behind the first `k`.

* `foldl_useKey`: uses of different keys leave the first `k` of these keys and the ones before.
* `mem_take_iff_fewer`: a key is among the first `k` where fewer than `k` keys are ahead of it.
-/

namespace Nyxis.Lib

variable {α : Type} [DecidableEq α]

/-- A use of a key. -/
def useKey (k : ℕ) (keys : List α) (p : α) : List α := (p :: keys.erase p).take k

theorem take_erase_take (p : α) : ∀ (k : ℕ) (l : List α), ((l.take (k + 1)).erase p).take k = (l.erase p).take k
  | k, [] => by simp
  | 0, a :: l => by simp
  | k + 1, a :: l => by
    rw [List.take_succ_cons]
    by_cases ha : a = p
    · rw [ha, List.erase_cons_head, List.erase_cons_head, List.take_take, Nat.min_self]
    · rw [List.erase_cons_tail (by simpa using ha), List.erase_cons_tail (by simpa using ha), List.take_succ_cons,
        List.take_succ_cons, take_erase_take p k l]

/-- A use does not look behind the first `k` keys. -/
theorem useKey_take (k : ℕ) (keys : List α) (p : α) : useKey k (keys.take k) p = useKey k keys p := by
  cases k with
  | zero => rfl
  | succ k => rw [useKey, useKey, List.take_succ_cons, List.take_succ_cons, take_erase_take]

/-- Uses of different keys: the latest of them first, then the other keys in their order. -/
theorem foldl_useKey {k : ℕ} {keys fresh : List α} (hkeys : keys.Nodup) (hlen : keys.length ≤ k) (hfresh : fresh.Nodup) :
    fresh.foldl (useKey k) keys = (fresh.reverse ++ keys.filter (· ∉ fresh)).take k := by
  induction fresh using List.reverseRecOn with
  | nil => simp [List.take_of_length_le hlen]
  | append_singleton fresh p ih =>
    have hp : p ∉ fresh := fun hmem => List.disjoint_of_nodup_append hfresh hmem List.mem_cons_self
    have hrest : (keys.filter (· ∉ fresh)).erase p = keys.filter (· ∉ fresh ++ [p]) := by
      rw [(hkeys.filter _).erase_eq_filter, List.filter_filter]
      refine List.filter_congr fun q _ => ?_
      rw [Bool.eq_iff_iff]
      simp [and_comm]
    rw [List.foldl_append, ih hfresh.of_append_left, List.foldl_cons, List.foldl_nil, useKey_take, useKey,
      List.erase_append_right _ (by simpa using hp), hrest, List.reverse_append, List.reverse_singleton,
      List.singleton_append, List.cons_append]

/-- The place of an element in a list that descends is the number of elements ahead of it. -/
theorem idxOf_eq_length_filter {r : α → α → Prop} [DecidableRel r] {l : List α} {p : α} (hl : l.Pairwise r) (hp : p ∈ l)
    (hirrefl : ∀ a ∈ l, ∀ b ∈ l, r a b → ¬ r b a) : l.idxOf p = (l.filter fun q => r q p).length := by
  induction l with
  | nil => cases hp
  | cons a l ih =>
    obtain ⟨ha, hl⟩ := List.pairwise_cons.mp hl
    by_cases hap : a = p
    · subst hap
      have hself : ¬ r a a := fun h => hirrefl a List.mem_cons_self a List.mem_cons_self h h
      have hnone : l.filter (fun q => r q a) = [] := by
        refine List.filter_eq_nil_iff.mpr fun q hq => ?_
        simpa using hirrefl a List.mem_cons_self q (List.mem_cons_of_mem _ hq) (ha q hq)
      rw [List.idxOf_cons_self, List.filter_cons, if_neg (by simpa using hself), hnone, List.length_nil]
    · have hmem : p ∈ l := (List.mem_cons.mp hp).resolve_left (Ne.symm hap)
      rw [List.idxOf_cons_ne _ hap, List.filter_cons, if_pos (by simpa using ha p hmem), List.length_cons,
        ih hl hmem fun b hb c hc => hirrefl b (List.mem_cons_of_mem _ hb) c (List.mem_cons_of_mem _ hc)]

/-- A key is among the first `k` where fewer than `k` keys are ahead of it. -/
theorem mem_take_iff_fewer {r : α → α → Prop} [DecidableRel r] {l : List α} {p : α} (k : ℕ) (hl : l.Pairwise r)
    (hirrefl : ∀ a ∈ l, ∀ b ∈ l, r a b → ¬ r b a) :
    p ∈ l.take k ↔ p ∈ l ∧ (l.filter fun q => r q p).length < k := by
  by_cases hp : p ∈ l
  · rw [List.mem_take_iff_idxOf_lt hp, idxOf_eq_length_filter hl hp hirrefl, and_iff_right hp]
  · exact iff_of_false (fun h => hp (List.mem_of_mem_take h)) fun h => hp h.1

end Nyxis.Lib

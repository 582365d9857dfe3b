import Mathlib.Data.List.Dedup
import Mathlib.Data.List.Perm.Basic

/-!
# Buckets — items by their key

`keyed key l` are the items of `l` that have a key, each with its key; `bucket` are the items of one key.  The buckets
of all keys, in any order, hold every keyed item once.

* `bucket_keyed`: what a bucket holds.
* `groups_perm`, `buckets_perm`: what all the buckets hold.
* `bucket_filterMap`: the values in a bucket, where the key of an item is that of its value.
-/

namespace Nyxis.Lib

section

variable {α β κ : Type} {key : α → Option κ}

/-- The items that have a key. -/
def keyed (key : α → Option κ) (l : List α) : List (κ × α) := l.filterMap fun a => (key a).map fun k => (k, a)

theorem keyed_cons_none {a : α} (h : key a = none) (l : List α) : keyed key (a :: l) = keyed key l :=
  List.filterMap_cons_none (by rw [h, Option.map_none])

theorem keyed_cons_some {a : α} {k : κ} (h : key a = some k) (l : List α) : keyed key (a :: l) = (k, a) :: keyed key l :=
  List.filterMap_cons_some (by rw [h, Option.map_some])

theorem mem_keyed {l : List α} {e : κ × α} : e ∈ keyed key l ↔ e.2 ∈ l ∧ key e.2 = some e.1 := by
  rw [keyed, List.mem_filterMap]
  constructor
  · rintro ⟨a, ha, hmap⟩
    obtain ⟨k, hk, rfl⟩ := Option.map_eq_some_iff.mp hmap
    exact ⟨ha, hk⟩
  · rintro ⟨ha, hk⟩
    exact ⟨e.2, ha, by rw [hk, Option.map_some]⟩

theorem map_snd_keyed (l : List α) : (keyed key l).map Prod.snd = l.filter fun a => (key a).isSome := by
  induction l with
  | nil => rfl
  | cons a l ih =>
    cases hk : key a with
    | none => rw [keyed_cons_none hk, ih, List.filter_cons_of_neg (by rw [hk]; exact Bool.false_ne_true)]
    | some k => rw [keyed_cons_some hk, List.map_cons, ih, List.filter_cons_of_pos (by rw [hk]; rfl)]

variable [DecidableEq κ]

/-- The items of one key. -/
def bucket (items : List (κ × α)) (k : κ) : List α := (items.filter fun e => e.1 == k).map Prod.snd

theorem bucket_keyed (l : List α) (k : κ) : bucket (keyed key l) k = l.filter fun a => key a == some k := by
  induction l with
  | nil => rfl
  | cons a l ih =>
    cases hk : key a with
    | none =>
      rw [keyed_cons_none hk, ih, List.filter_cons_of_neg]
      rw [hk]
      exact Bool.false_ne_true
    | some k' =>
      rw [bucket] at ih
      rw [keyed_cons_some hk, bucket]
      by_cases heq : k' = k
      · rw [List.filter_cons_of_pos (by simpa using heq), List.map_cons, ih,
          List.filter_cons_of_pos (by rw [hk, heq]; exact beq_self_eq_true _)]
      · rw [List.filter_cons_of_neg (by simpa using heq), ih, List.filter_cons_of_neg (by rw [hk]; simpa using heq)]

/-- The groups of some keys hold the items of these keys. -/
theorem groups_perm (keyOf : α → κ) (l : List α) : ∀ {keys : List κ}, keys.Nodup →
    (keys.flatMap fun k => l.filter fun a => keyOf a == k).Perm (l.filter fun a => decide (keyOf a ∈ keys))
  | [], _ => by
    rw [List.flatMap_nil, List.filter_eq_nil_iff.mpr fun a _ => by simp]
  | k :: keys, hnd => by
    obtain ⟨hk, hkeys⟩ := List.nodup_cons.mp hnd
    have ih := groups_perm keyOf l hkeys
    have hsplit := List.filter_append_perm (fun a => keyOf a == k) (l.filter fun a => decide (keyOf a ∈ k :: keys))
    rw [List.filter_filter, List.filter_filter] at hsplit
    have hfirst : (l.filter fun a => (keyOf a == k) && decide (keyOf a ∈ k :: keys)) = l.filter fun a => keyOf a == k :=
      List.filter_congr fun a _ => by
        by_cases heq : keyOf a = k
        · simp [heq]
        · simp [heq]
    have hrest : (l.filter fun a => (!(keyOf a == k)) && decide (keyOf a ∈ k :: keys)) = l.filter fun a => decide (keyOf a ∈ keys) :=
      List.filter_congr fun a _ => by
        by_cases heq : keyOf a = k
        · simp [heq, hk]
        · simp [heq]
    rw [hfirst, hrest] at hsplit
    rw [List.flatMap_cons]
    exact (ih.append_left _).trans hsplit

/-- The buckets of all keys, in any order, hold all the items. -/
theorem buckets_perm {items : List (κ × α)} {keys : List κ} (hkeys : keys.Perm (items.map Prod.fst).dedup) :
    ((keys.map (bucket items)).flatten).Perm (items.map Prod.snd) := by
  have hnd : keys.Nodup := hkeys.nodup_iff.mpr (List.nodup_dedup _)
  have hall : (items.filter fun e => decide (e.1 ∈ keys)) = items := List.filter_eq_self.mpr fun e he =>
    decide_eq_true (hkeys.mem_iff.mpr (List.mem_dedup.mpr (List.mem_map_of_mem he)))
  have hflat : (keys.map (bucket items)).flatten = (keys.flatMap fun k => items.filter fun e => e.1 == k).map Prod.snd := by
    rw [List.map_flatMap]
    rfl
  rw [hflat]
  have hperm := (groups_perm Prod.fst items hnd).map Prod.snd
  rwa [hall] at hperm

/-- The values in a bucket are those that have its key, where a value has the key of its item. -/
theorem bucket_filterMap {value : α → Option β} {keyOf : β → κ}
    (h : ∀ a k b, key a = some k → value a = some b → keyOf b = k) (l : List α) (k : κ) :
    (bucket (keyed key l) k).filterMap value =
      ((l.filter fun a => (key a).isSome).filterMap value).filter fun b => keyOf b == k := by
  rw [bucket_keyed]
  induction l with
  | nil => rfl
  | cons a l ih =>
    cases hk : key a with
    | none =>
      rw [List.filter_cons_of_neg (by rw [hk]; exact Bool.false_ne_true), ih,
        List.filter_cons_of_neg (by rw [hk]; exact Bool.false_ne_true)]
    | some k' =>
      rw [List.filter_cons_of_pos (p := fun a => (key a).isSome) (by rw [hk]; rfl)]
      by_cases heq : k' = k
      · rw [List.filter_cons_of_pos (by rw [hk, heq]; exact beq_self_eq_true _)]
        cases hv : value a with
        | none => rw [List.filterMap_cons_none hv, List.filterMap_cons_none hv, ih]
        | some b =>
          rw [List.filterMap_cons_some hv, List.filterMap_cons_some hv, ih, List.filter_cons_of_pos]
          rw [beq_iff_eq, h a k' b hk hv, heq]
      · rw [List.filter_cons_of_neg (by rw [hk]; simpa using heq), ih]
        cases hv : value a with
        | none => rw [List.filterMap_cons_none hv]
        | some b =>
          rw [List.filterMap_cons_some hv, List.filter_cons_of_neg]
          rw [beq_iff_eq, h a k' b hk hv]
          exact heq

end

end Nyxis.Lib

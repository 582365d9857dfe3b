import Mathlib.Data.List.Nodup

/-!
# Lib.Tables — lists of keys and values

* `lookup_of_mem`, `lookup_of_not_mem`: what a table with different keys has under a key.
-/

namespace Nyxis.Lib

variable {α β : Type} [BEq α] [LawfulBEq α] {a : α} {b : β} {l : List (α × β)}

theorem lookup_of_mem (hnd : (l.map Prod.fst).Nodup) (h : (a, b) ∈ l) : l.lookup a = some b := by
  obtain ⟨l₁, l₂, rfl⟩ := List.append_of_mem h
  rw [List.map_append, List.map_cons, List.nodup_append] at hnd
  refine List.lookup_eq_some_iff.mpr ⟨l₁, l₂, rfl, fun e he => ?_⟩
  rw [bne_iff_ne]
  exact (hnd.2.2 e.1 (List.mem_map_of_mem he) a List.mem_cons_self).symm

theorem lookup_of_not_mem (h : a ∉ l.map Prod.fst) : l.lookup a = none := by
  rw [List.lookup_eq_none_iff]
  rintro entry hentry
  rw [bne_iff_ne]
  rintro rfl
  exact h (List.mem_map_of_mem hentry)

end Nyxis.Lib

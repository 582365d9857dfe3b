import Mathlib.Data.List.Basic

/-!
# Lib.FirstSeen — distinct values in the order in which they were first seen

* `FirstSeen.concat`: a value that was not seen yet goes to the end.
* `FirstSeen.idxOf_lt_iff`: the order in which two values were first seen.
-/

namespace Nyxis.Lib

variable {α : Type} [DecidableEq α]

/-- The values of `all`, each once and by its first occurrence. -/
structure FirstSeen (keys all : List α) : Prop where
  mem : ∀ k, k ∈ keys ↔ k ∈ all
  order : keys.Pairwise fun a b => all.idxOf a < all.idxOf b

namespace FirstSeen

variable {keys all : List α}

theorem nil : FirstSeen ([] : List α) [] := ⟨fun _ => Iff.rfl, .nil⟩

theorem nodup (h : FirstSeen keys all) : keys.Nodup := h.order.imp fun hlt heq => by
  rw [heq] at hlt
  exact absurd hlt (Nat.lt_irrefl _)

theorem concat (h : FirstSeen keys all) (k : α) : FirstSeen (if k ∈ keys then keys else keys ++ [k]) (all ++ [k]) := by
  have hold : keys.Pairwise fun a b => (all ++ [k]).idxOf a < (all ++ [k]).idxOf b := by
    refine h.order.imp_of_mem fun {a b} ha hb hlt => ?_
    rwa [List.idxOf_append_of_mem ((h.mem a).mp ha), List.idxOf_append_of_mem ((h.mem b).mp hb)]
  by_cases hk : k ∈ keys
  · rw [if_pos hk]
    refine ⟨fun a => ?_, hold⟩
    rw [List.mem_append, h.mem, List.mem_singleton]
    exact ⟨.inl, fun ha => ha.elim id fun heq => heq ▸ (h.mem k).mp hk⟩
  · rw [if_neg hk]
    refine ⟨fun a => by rw [List.mem_append, List.mem_append, h.mem], List.pairwise_append.mpr ⟨hold, .cons nofun .nil, ?_⟩⟩
    intro a ha b hb
    obtain rfl := List.mem_singleton.mp hb
    have hknew : b ∉ all := fun hmem => hk ((h.mem b).mpr hmem)
    rw [List.idxOf_append_of_mem ((h.mem a).mp ha), List.idxOf_append_of_notMem hknew, List.idxOf_cons_self, Nat.add_zero]
    exact List.idxOf_lt_length_iff.mpr ((h.mem a).mp ha)

theorem idxOf_lt_iff (h : FirstSeen keys all) {a b : α} (ha : a ∈ keys) (hb : b ∈ keys) :
    keys.idxOf a < keys.idxOf b ↔ all.idxOf a < all.idxOf b := by
  have hmono : ∀ {a b : α}, a ∈ keys → b ∈ keys → keys.idxOf a < keys.idxOf b → all.idxOf a < all.idxOf b := by
    intro a b ha hb hlt
    have horder := List.pairwise_iff_getElem.mp h.order _ _ (List.idxOf_lt_length_iff.mpr ha) (List.idxOf_lt_length_iff.mpr hb) hlt
    rwa [List.getElem_idxOf, List.getElem_idxOf] at horder
  refine ⟨hmono ha hb, fun hlt => ?_⟩
  rcases Nat.lt_trichotomy (keys.idxOf a) (keys.idxOf b) with hab | hab | hab
  · exact hab
  · rw [(List.idxOf_inj ha).mp hab] at hlt
    exact absurd hlt (Nat.lt_irrefl _)
  · exact absurd (hmono hb ha hab) (Nat.lt_asymm hlt)

end FirstSeen

end Nyxis.Lib

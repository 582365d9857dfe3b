import Mathlib.Data.Option.Basic
import Mathlib.Data.List.Basic

/-!
# Lib.Runs — runs of a partial step function

`Reached step allowed init s` says that `s` is reached from `init` by steps that `allowed` admits.  An
invariant of the admitted steps holds in every such state (`Reached.invariant`).  `runGuarded` runs a
list of steps and checks each of them.
-/

namespace Nyxis.Lib

variable {σ α : Type} {step : σ → α → Option σ} {allowed : σ → α → Prop} {init s : σ}

/-- The states reached by admitted steps. -/
inductive Reached (step : σ → α → Option σ) (allowed : σ → α → Prop) (init : σ) : σ → Prop where
  | init : Reached step allowed init init
  | step {s s' : σ} {a : α} (h : Reached step allowed init s) (ha : allowed s a)
    (hs : step s a = some s') : Reached step allowed init s'

namespace Reached

/-- What holds at first and is kept by each admitted step holds in every state reached. -/
theorem invariant {I : σ → Prop} (h0 : I init)
    (hstep : ∀ s a s', I s → allowed s a → step s a = some s' → I s')
    (h : Reached step allowed init s) : I s := by
  induction h with
  | init => exact h0
  | step _ ha hs ih => exact hstep _ _ _ ih ha hs

theorem mono {allowed' : σ → α → Prop} (hsub : ∀ s a, allowed s a → allowed' s a)
    (h : Reached step allowed init s) : Reached step allowed' init s := by
  induction h with
  | init => exact .init
  | step _ ha hs ih => exact .step ih (hsub _ _ ha) hs

end Reached

/-- The steps of a list one after the other, each of them admitted. -/
def runGuarded (step : σ → α → Option σ) (allowed : σ → α → Prop) [∀ s a, Decidable (allowed s a)] :
    σ → List α → Option σ
  | s, [] => some s
  | s, a :: as => if allowed s a then (step s a).bind fun s' => runGuarded step allowed s' as else none

theorem reached_of_runGuarded [∀ s a, Decidable (allowed s a)] :
    ∀ {as : List α} {s s' : σ}, Reached step allowed init s → runGuarded step allowed s as = some s' →
      Reached step allowed init s'
  | [], s, s', h, hrun => by
    cases hrun
    exact h
  | a :: as, s, s', h, hrun => by
    rw [runGuarded] at hrun
    split at hrun
    · rename_i ha
      obtain ⟨t, ht, hrest⟩ := Option.bind_eq_some_iff.mp hrun
      exact reached_of_runGuarded (.step h ha ht) hrest
    · cases hrun

end Nyxis.Lib

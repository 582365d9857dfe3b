import Nyxis.Lib.Bytes

/-!
# Lib.Safe — programs that do not panic

`Safe x Q` says that `x` does not panic, and that a value it returns satisfies `Q`; an `Err` is as good
as any value.  There is one rule for each way of composing a program and one for each access to a slice
and each machine operation, so that a function is shown safe from its parts and the bounds they need.

* `Safe.bind`, `safe_ensure_bind`, `safe_if`: sequencing, an early return, a branch.
* `safe_range`, `safe_index`, `safe_readLE`: the accesses that need a bound.
* `safe_mapM`, `safe_foldlM`, `safe_filterMapM`: loops.
-/

namespace Nyxis.Lib

open Outcome

variable {ε α β : Type}

/-- `x` does not panic, and a value that it returns satisfies `Q`. -/
def Safe (x : Outcome ε α) (Q : α → Prop) : Prop :=
  match x with
  | .ok a => Q a
  | .err _ => True
  | .panic => False

/-- Any value will do. -/
abbrev Any : α → Prop := fun _ => True

theorem safe_ok {Q : α → Prop} {a : α} (h : Q a) : Safe (.ok a : Outcome ε α) Q := h

theorem safe_err {Q : α → Prop} {e : ε} : Safe (.err e : Outcome ε α) Q := trivial

theorem Safe.of_eq_ok {x : Outcome ε α} {Q : α → Prop} {a : α} (h : x = .ok a) (hQ : Q a) : Safe x Q := by
  rw [h]
  exact hQ

theorem Safe.ne_panic {x : Outcome ε α} {Q : α → Prop} (h : Safe x Q) : x ≠ .panic := by
  intro hx
  rw [hx] at h
  exact h

theorem Safe.post {x : Outcome ε α} {Q : α → Prop} {a : α} (h : Safe x Q) (hx : x = .ok a) : Q a := by
  rw [hx] at h
  exact h

theorem safe_iff {x : Outcome ε α} {Q : α → Prop} : Safe x Q ↔ x ≠ .panic ∧ ∀ a, x = .ok a → Q a := by
  cases x <;> simp [Safe]

/-- A safe program ends in a value or in an error. -/
theorem Safe.cases {x : Outcome ε α} {Q : α → Prop} (h : Safe x Q) :
    (∃ a, x = .ok a) ∨ ∃ e, x = .err e := by
  cases x with
  | ok a => exact .inl ⟨a, rfl⟩
  | err e => exact .inr ⟨e, rfl⟩
  | panic => exact absurd h id

theorem Safe.mono {x : Outcome ε α} {Q R : α → Prop} (h : Safe x Q) (hQ : ∀ a, Q a → R a) : Safe x R := by
  rw [safe_iff] at h ⊢
  exact ⟨h.1, fun a ha => hQ a (h.2 a ha)⟩

theorem Safe.bind {x : Outcome ε α} {f : α → Outcome ε β} {Q : α → Prop} {R : β → Prop} (h : Safe x Q)
    (hf : ∀ a, Q a → Safe (f a) R) : Safe (x >>= f) R := by
  cases x with
  | ok a => exact hf a h
  | err e => exact trivial
  | panic => exact absurd h id

theorem Safe.map {x : Outcome ε α} {f : α → β} {Q : α → Prop} {R : β → Prop} (h : Safe x Q)
    (hf : ∀ a, Q a → R (f a)) : Safe (f <$> x) R := by
  cases x with
  | ok a => exact hf a h
  | err e => exact trivial
  | panic => exact absurd h id

theorem safe_if {p : Prop} [Decidable p] {x y : Outcome ε α} {Q : α → Prop} (hx : p → Safe x Q)
    (hy : ¬ p → Safe y Q) : Safe (if p then x else y) Q := by
  by_cases h : p
  · rw [if_pos h]
    exact hx h
  · rw [if_neg h]
    exact hy h

/-- What follows an early return may assume that its test passed. -/
theorem safe_ensure_bind {p : Prop} [Decidable p] {e : ε} {f : Unit → Outcome ε α} {Q : α → Prop}
    (h : p → Safe (f ()) Q) : Safe (ensure p e >>= f) Q := by
  unfold ensure
  by_cases hp : p
  · rw [if_pos hp]
    exact h hp
  · rw [if_neg hp]
    exact trivial

theorem safe_ensure (p : Prop) [Decidable p] (e : ε) : Safe (ensure p e) fun _ => p := by
  unfold ensure
  exact safe_if (fun h => safe_ok h) fun _ => safe_err

theorem safe_okOr {x : Opt α} {e : ε} {Q : α → Prop} (h : Safe x Q) : Safe (okOr x e) Q := by
  cases x <;> exact h

theorem safe_toOpt {x : Outcome ε α} {Q : α → Prop} (h : Safe x Q) : Safe x.toOpt Q := by
  cases x <;> exact h

theorem safe_ofOption {x : Option α} {Q : α → Prop} (h : ∀ a, x = some a → Q a) :
    Safe (Outcome.ofOption x) Q := by
  cases x with
  | some a => exact h a rfl
  | none => exact trivial

/-- A loop that collects its results is safe when each of its rounds is. -/
theorem safe_mapM {f : α → Outcome ε β} {Q : β → Prop} :
    ∀ {l : List α}, (∀ a ∈ l, Safe (f a) Q) →
      Safe (l.mapM f) fun bs => bs.length = l.length ∧ ∀ b ∈ bs, Q b
  | [], _ => safe_ok ⟨rfl, fun _ hb => absurd hb List.not_mem_nil⟩
  | a :: l, h => by
    rw [List.mapM_cons]
    refine (h a List.mem_cons_self).bind fun b hb => ?_
    refine (safe_mapM fun a' ha => h a' (List.mem_cons_of_mem _ ha)).bind fun bs hbs => ?_
    refine safe_ok ⟨by rw [List.length_cons, List.length_cons, hbs.1], ?_⟩
    intro c hc
    rcases List.mem_cons.mp hc with rfl | hc
    · exact hb
    · exact hbs.2 c hc

/-- A loop keeps what each of its rounds keeps. -/
theorem safe_foldlM {f : β → α → Outcome ε β} {I : β → Prop} :
    ∀ {l : List α} {b : β}, I b → (∀ b, I b → ∀ a ∈ l, Safe (f b a) I) → Safe (l.foldlM f b) I
  | [], _, hb, _ => safe_ok hb
  | a :: l, b, hb, h => by
    rw [List.foldlM_cons]
    refine (h b hb a List.mem_cons_self).bind fun c hc => ?_
    exact safe_foldlM hc fun b' hb' a' ha => h b' hb' a' (List.mem_cons_of_mem _ ha)

/-- So does one that keeps some of its results. -/
theorem safe_filterMapM {f : α → Outcome ε (Option β)} {Q : β → Prop} :
    ∀ {l : List α}, (∀ a ∈ l, Safe (f a) fun o => ∀ b, o = some b → Q b) →
      Safe (l.filterMapM f) fun bs => bs.length ≤ l.length ∧ ∀ b ∈ bs, Q b
  | [], _ => safe_ok ⟨Nat.le_refl 0, fun _ hb => absurd hb List.not_mem_nil⟩
  | a :: l, h => by
    rw [List.filterMapM_cons]
    refine (h a List.mem_cons_self).bind fun o ho => ?_
    have hrest := safe_filterMapM fun a' ha => h a' (List.mem_cons_of_mem _ ha)
    cases o with
    | none => exact hrest.mono fun bs hbs => ⟨Nat.le_succ_of_le hbs.1, hbs.2⟩
    | some b =>
      refine hrest.bind fun bs hbs => safe_ok ⟨Nat.succ_le_succ hbs.1, ?_⟩
      intro c hc
      rcases List.mem_cons.mp hc with rfl | hc
      · exact ho c rfl
      · exact hbs.2 c hc

/-! ## Machine arithmetic -/

theorem safe_usizeAdd {a b : ℕ} (h : a + b < 2 ^ 64) : Safe (usizeAdd a b : Outcome ε ℕ) (· = a + b) := by
  rw [usizeAdd_of h]
  exact rfl

theorem safe_checkedAdd (a b : ℕ) : Safe (checkedAdd a b) fun c => c = a + b ∧ c < 2 ^ 64 := by
  unfold checkedAdd
  exact safe_if (fun h => safe_ok ⟨rfl, h⟩) fun _ => safe_err

theorem safe_checkedMul (a b : ℕ) : Safe (checkedMul a b) fun c => c = a * b ∧ c < 2 ^ 64 := by
  unfold checkedMul
  exact safe_if (fun h => safe_ok ⟨rfl, h⟩) fun _ => safe_err

/-! ## Slice accesses -/

theorem safe_index {d : Bytes} {i : ℕ} (h : i < d.length) : Safe (index d i : Outcome ε UInt8) Any := by
  rw [index, List.getElem?_eq_getElem h]
  exact trivial

theorem safe_get (d : Bytes) (i : ℕ) : Safe (get d i) fun _ => i < d.length := by
  unfold get
  exact safe_ofOption fun a ha => (List.getElem?_eq_some_iff.mp ha).1

theorem safe_range {d : Bytes} {a b : ℕ} (h : a ≤ b) (hb : b ≤ d.length) :
    Safe (range d a b : Outcome ε Bytes) fun s => s.length = b - a := by
  rw [range_of h hb]
  refine safe_ok ?_
  rw [List.length_take, List.length_drop]
  omega

theorem safe_getRange (d : Bytes) (a b : ℕ) :
    Safe (getRange d a b) fun s => s.length = b - a ∧ a ≤ b ∧ b ≤ d.length := by
  unfold getRange
  refine safe_if (fun h => safe_ok ⟨?_, h⟩) fun _ => safe_err
  rw [List.length_take, List.length_drop]
  omega

theorem safe_readLE {d : Bytes} {p w : ℕ} (h : p + w ≤ d.length) (hd : d.length < 2 ^ 64) :
    Safe (readLE d p w : Outcome ε ℕ) (· < 256 ^ w) := by
  rw [readLE, usizeAdd_of (by omega), ok_bind]
  refine (safe_range (by omega) h).bind fun s hs => safe_ok ?_
  have hlt := leNat_lt s
  rwa [hs, Nat.add_sub_cancel_left] at hlt

theorem safe_getLE {d : Bytes} {p w : ℕ} (h : p + w < 2 ^ 64) :
    Safe (getLE d p w) fun n => n < 256 ^ w ∧ p + w ≤ d.length := by
  rw [getLE, usizeAdd_of h, ok_bind]
  refine (safe_getRange d p (p + w)).bind fun s hs => safe_ok ?_
  have hlt := leNat_lt s
  rw [hs.1, Nat.add_sub_cancel_left] at hlt
  exact ⟨hlt, hs.2.2⟩

end Nyxis.Lib

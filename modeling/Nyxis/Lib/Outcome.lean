import Mathlib.Data.List.Forall2
import Mathlib.Tactic.Ring

/-!
# Lib.Outcome — results of Rust code, panics included

`Outcome ε α` is what a call of a fallible Rust function ends in: a value, an `Err` carrying an `ε`,
or a panic.  `Opt α := Outcome Unit α` is the same for functions returning `Option`, with `none'`
for `None`.  Slicing, indexing and unchecked machine arithmetic panic; the checked forms do not.

* `bind_eq_ok` and its companions take a run apart, step by step.
* `ensure` is an early `return Err(..)`, `demand` an assertion that panics.
* `usizeAdd`, `usizeSub`, `usizeMul` are unchecked 64-bit arithmetic, `checkedAdd`, `checkedMul` the checked one.
-/

namespace Nyxis.Lib

/-- What running a fallible Rust function ends in: a value, an `Err`, or a panic. -/
inductive Outcome (ε α : Type) where
  | ok (a : α)
  | err (e : ε)
  | panic
  deriving DecidableEq, Repr

/-- The outcome of a Rust function that returns an `Option`. -/
abbrev Opt (α : Type) := Outcome Unit α

namespace Outcome

variable {ε ε' α β γ : Type}

/-- The value of a call that succeeds. -/
def toOption : Outcome ε α → Option α
  | ok a => some a
  | _ => none

/-- Rust's `None`. -/
abbrev none' : Opt α := .err ()

protected def bind (x : Outcome ε α) (f : α → Outcome ε β) : Outcome ε β :=
  match x with
  | ok a => f a
  | err e => err e
  | panic => panic

protected def map (f : α → β) (x : Outcome ε α) : Outcome ε β := x.bind fun a => ok (f a)

instance : Monad (Outcome ε) where
  pure := ok
  bind := Outcome.bind

@[simp] theorem pure_eq (a : α) : (pure a : Outcome ε α) = ok a := rfl
@[simp] theorem ok_bind (a : α) (f : α → Outcome ε β) : (ok a >>= f) = f a := rfl
@[simp] theorem err_bind (e : ε) (f : α → Outcome ε β) : (err e >>= f) = err e := rfl
@[simp] theorem panic_bind (f : α → Outcome ε β) : (panic >>= f) = panic := rfl
@[simp] theorem map_ok (f : α → β) (a : α) : f <$> (ok a : Outcome ε α) = ok (f a) := rfl
@[simp] theorem map_err (f : α → β) (e : ε) : f <$> (err e : Outcome ε α) = err e := rfl
@[simp] theorem map_panic (f : α → β) : f <$> (panic : Outcome ε α) = panic := rfl

instance : LawfulMonad (Outcome ε) :=
  LawfulMonad.mk' _ (fun x => by cases x <;> rfl) (fun _ _ => rfl)
    (fun x _ _ => by cases x <;> rfl)

/-- A computation that succeeds has an intermediate value from which the rest succeeds. -/
theorem bind_eq_ok {x : Outcome ε α} {f : α → Outcome ε β} {b : β} :
    (x >>= f) = ok b ↔ ∃ a, x = ok a ∧ f a = ok b := by
  cases x <;> simp

theorem map_eq_ok {x : Outcome ε α} {f : α → β} {b : β} :
    f <$> x = ok b ↔ ∃ a, x = ok a ∧ f a = b := by
  cases x <;> simp

/-- Each element of a list that is folded successfully makes a step. -/
theorem foldlM_eq_ok_mem {f : β → α → Outcome ε β} {a : α} : ∀ {l : List α} {b b' : β}, l.foldlM f b = ok b' → a ∈ l →
    ∃ c c', f c a = ok c'
  | x :: l, b, b', h, ha => by
    rw [List.foldlM_cons] at h
    obtain ⟨c, hc, h⟩ := bind_eq_ok.mp h
    rcases List.mem_cons.mp ha with rfl | ha
    · exact ⟨b, c, hc⟩
    · exact foldlM_eq_ok_mem h ha

/-- A list is processed successfully exactly when each of its elements is. -/
theorem mapM_eq_ok {f : α → Outcome ε β} : ∀ {l : List α} {bs : List β},
    l.mapM f = ok bs ↔ List.Forall₂ (fun a b => f a = ok b) l bs
  | [], bs => by
    rw [List.mapM_nil, pure_eq, List.forall₂_nil_left_iff, ok.injEq, eq_comm]
  | a :: l, bs => by
    rw [List.mapM_cons, bind_eq_ok, List.forall₂_cons_left_iff]
    constructor
    · rintro ⟨b, hb, h⟩
      obtain ⟨cs, hcs, h⟩ := bind_eq_ok.mp h
      cases h
      exact ⟨b, cs, hb, mapM_eq_ok.mp hcs, rfl⟩
    · rintro ⟨b, cs, hb, hcs, rfl⟩
      exact ⟨b, hb, bind_eq_ok.mpr ⟨cs, mapM_eq_ok.mpr hcs, rfl⟩⟩

theorem exists_mapM_eq_ok {f : α → Outcome ε β} {l : List α} :
    (∃ bs, l.mapM f = ok bs) ↔ ∀ a ∈ l, ∃ b, f a = ok b := by
  constructor
  · rintro ⟨bs, h⟩ a ha
    obtain ⟨i, hi, rfl⟩ := List.getElem_of_mem ha
    have hall := mapM_eq_ok.mp h
    exact ⟨_, hall.get hi (hall.length_eq ▸ hi)⟩
  · intro h
    induction l with
    | nil => exact ⟨[], rfl⟩
    | cons a l ih =>
      obtain ⟨b, hb⟩ := h a (by simp)
      obtain ⟨bs, hbs⟩ := ih fun a' ha => h a' (by simp [ha])
      exact ⟨b :: bs, by rw [List.mapM_cons, hb, ok_bind, hbs]; rfl⟩

/-- A list whose elements do not panic does not panic. -/
theorem mapM_ne_panic {f : α → Outcome ε β} : ∀ {l : List α}, (∀ a ∈ l, f a ≠ panic) → l.mapM f ≠ panic
  | [], _ => by
    rw [List.mapM_nil]
    exact fun h => by cases h
  | a :: l, h => by
    have ih := mapM_ne_panic (l := l) fun b hb => h b (List.mem_cons_of_mem a hb)
    have ha := h a List.mem_cons_self
    rw [List.mapM_cons]
    cases hfa : f a with
    | ok b =>
      rw [ok_bind]
      cases hl : l.mapM f with
      | ok bs => exact fun h => by cases h
      | err e => exact fun h => by cases h
      | panic => exact absurd hl ih
    | err e => exact fun h => by cases h
    | panic => exact absurd hfa ha

/-- Where no element panics, a list is processed successfully, or one of its elements fails and the list as well. -/
theorem mapM_cases {f : α → Outcome ε β} {l : List α} (h : ∀ a ∈ l, f a ≠ panic) :
    ((∀ a ∈ l, ∃ b, f a = ok b) ∧ ∃ bs, l.mapM f = ok bs) ∨ (∃ a ∈ l, ∃ e, f a = err e) ∧ ∃ e, l.mapM f = err e := by
  by_cases hall : ∀ a ∈ l, ∃ b, f a = ok b
  · exact .inl ⟨hall, exists_mapM_eq_ok.mpr hall⟩
  · refine .inr ⟨?_, ?_⟩
    · push Not at hall
      obtain ⟨a, ha, hnot⟩ := hall
      refine ⟨a, ha, ?_⟩
      cases hfa : f a with
      | ok b => exact absurd hfa (hnot b)
      | err e => exact ⟨e, rfl⟩
      | panic => exact absurd hfa (h a ha)
    · cases hl : l.mapM f with
      | ok bs => exact absurd (exists_mapM_eq_ok.mp ⟨bs, hl⟩) hall
      | err e => exact ⟨e, rfl⟩
      | panic => exact absurd hl (mapM_ne_panic h)

/-- A loop that takes a value from each element before it uses it. -/
theorem foldlM_values {f : α → Outcome ε β} {g : γ → β → γ} : ∀ {l : List α} {c : γ},
    (l.foldlM (fun c a => do let b ← f a; ok (g c b)) c : Outcome ε γ) = do let bs ← l.mapM f; ok (bs.foldl g c)
  | [], c => rfl
  | a :: l, c => by
    rw [List.foldlM_cons, List.mapM_cons]
    cases hfa : f a with
    | ok b =>
      simp only [ok_bind]
      rw [foldlM_values]
      cases l.mapM f <;> rfl
    | err e => rfl
    | panic => rfl

/-- A loop that takes a value from each element, and uses it in steps that can fail. -/
theorem foldlM_mapM {f : α → Outcome ε β} {step : γ → β → Outcome ε γ} : ∀ {l : List α} {c c' : γ},
    l.foldlM (fun c a => do let b ← f a; step c b) c = ok c' → ∃ bs, l.mapM f = ok bs ∧ bs.foldlM step c = ok c'
  | [], _, _, h => ⟨[], rfl, h⟩
  | a :: l, c, c', h => by
    rw [List.foldlM_cons] at h
    obtain ⟨c₁, hstep, h⟩ := bind_eq_ok.mp h
    obtain ⟨b, hb, hstep⟩ := bind_eq_ok.mp hstep
    obtain ⟨bs, hbs, hrest⟩ := foldlM_mapM h
    refine ⟨b :: bs, ?_, ?_⟩
    · rw [List.mapM_cons, hb, ok_bind, hbs]
      rfl
    · rw [List.foldlM_cons]
      exact bind_eq_ok.mpr ⟨c₁, hstep, hrest⟩

/-- A loop whose steps give what a loop over another list gives. -/
theorem foldlM_forall₂ {step : γ → α → Outcome ε γ} {g : γ → β → γ} {l : List α} {bs : List β}
    (h : List.Forall₂ (fun a b => ∀ s, step s a = ok (g s b)) l bs) : ∀ s, l.foldlM step s = ok (bs.foldl g s) := by
  induction h with
  | nil => exact fun s => rfl
  | cons hstep _ ih =>
    intro s
    rw [List.foldlM_cons, hstep, ok_bind, ih, List.foldl_cons]

theorem mapM_congr {f g : α → Outcome ε β} : ∀ {l : List α}, (∀ a ∈ l, f a = g a) → l.mapM f = l.mapM g
  | [], _ => rfl
  | a :: l, h => by
    rw [List.mapM_cons, List.mapM_cons, h a List.mem_cons_self, mapM_congr fun x hx => h x (List.mem_cons_of_mem _ hx)]

theorem mapM_congr₂ {f : α → Outcome ε γ} {g : β → Outcome ε γ} {l : List α} {l' : List β}
    (h : List.Forall₂ (fun a b => f a = g b) l l') : l.mapM f = l'.mapM g := by
  induction h with
  | nil => rfl
  | cons hab _ ih => rw [List.mapM_cons, List.mapM_cons, hab, ih]

/-- Loops whose steps give a value or nothing. -/
theorem filterMapM_ok {f : α → Outcome ε (Option β)} {g : α → Option β} :
    ∀ {l : List α}, (∀ a ∈ l, f a = ok (g a)) → l.filterMapM f = ok (l.filterMap g)
  | [], _ => by
    rw [List.filterMapM_nil, List.filterMap_nil]
    rfl
  | a :: l, h => by
    rw [List.filterMapM_cons, h a List.mem_cons_self, ok_bind,
      filterMapM_ok fun b hb => h b (List.mem_cons_of_mem a hb), List.filterMap_cons]
    cases g a <;> rfl

/-- Loops whose steps do not fail do not fail. -/
theorem filterMapM_ne_err {f : α → Outcome ε (Option β)} : ∀ {l : List α},
    (∀ a ∈ l, ∀ e, f a ≠ .err e) → ∀ e, l.filterMapM f ≠ .err e
  | [], _, e => by
    rw [List.filterMapM_nil]
    exact fun h => by cases h
  | a :: l, h, e => by
    have ih := filterMapM_ne_err (l := l) fun b hb => h b (List.mem_cons_of_mem a hb)
    have ha := h a List.mem_cons_self
    rw [List.filterMapM_cons]
    cases hfa : f a with
    | ok o =>
      rw [ok_bind]
      cases o with
      | none => exact ih e
      | some b =>
        cases hl : l.filterMapM f with
        | ok bs => exact fun h => by cases h
        | err e' => exact absurd hl (ih e')
        | panic => exact fun h => by cases h
    | err e' => exact absurd hfa (ha e')
    | panic => exact fun h => by cases h

/-- `x.is_ok()`. -/
def isOk : Outcome ε α → Bool
  | ok _ => true
  | _ => false

theorem isOk_iff {x : Outcome ε α} : x.isOk = true ↔ ∃ a, x = ok a := by
  cases x <;> simp [isOk]

/-- `x.ok()`: the error is forgotten. -/
def toOpt : Outcome ε α → Opt α
  | ok a => ok a
  | err _ => none'
  | panic => panic

/-- `x.ok_or(e)`. -/
def okOr (x : Opt α) (e : ε) : Outcome ε α :=
  match x with
  | ok a => ok a
  | err _ => err e
  | panic => panic

/-- `x.expect(..)` and `x.unwrap()`: an error is a panic. -/
def expect : Outcome ε α → Outcome ε' α
  | ok a => ok a
  | err _ => panic
  | panic => panic

/-- A Lean `Option` as the value of a Rust one. -/
def ofOption : Option α → Opt α
  | some a => ok a
  | none => none'

@[simp] theorem toOpt_ok (a : α) : (ok a : Outcome ε α).toOpt = ok a := rfl
@[simp] theorem toOpt_err (e : ε) : (err e : Outcome ε α).toOpt = none' := rfl
@[simp] theorem toOpt_panic : (panic : Outcome ε α).toOpt = panic := rfl

theorem toOpt_eq_ok {x : Outcome ε α} {a : α} : x.toOpt = ok a ↔ x = ok a := by
  cases x with
  | ok b => simp
  | err e => simp [toOpt]
  | panic => simp [toOpt]

/-- Two options are the same where they hold the same values. -/
theorem eq_of_ok_iff {x y : Opt α} (hx : x ≠ panic) (hy : y ≠ panic) (h : ∀ a, x = ok a ↔ y = ok a) :
    x = y := by
  cases x with
  | ok a => exact ((h a).mp rfl).symm
  | panic => exact absurd rfl hx
  | err e =>
    cases y with
    | ok a => exact (h a).mpr rfl
    | panic => exact absurd rfl hy
    | err e' => rfl

theorem toOption_eq_some {x : Outcome ε α} {a : α} : x.toOption = some a ↔ x = ok a := by
  cases x with
  | ok b => simp [toOption]
  | err e => simp [toOption]
  | panic => simp [toOption]
@[simp] theorem okOr_ok (a : α) (e : ε) : okOr (ok a) e = ok a := rfl
@[simp] theorem okOr_err (e : ε) : okOr (none' : Opt α) e = err e := rfl
@[simp] theorem okOr_panic (e : ε) : okOr (panic : Opt α) e = panic := rfl
@[simp] theorem expect_ok (a : α) : (expect (ok a : Outcome ε α) : Outcome ε' α) = ok a := rfl
@[simp] theorem expect_err (e : ε) : (expect (err e : Outcome ε α) : Outcome ε' α) = panic := rfl
@[simp] theorem expect_panic : (expect (panic : Outcome ε α) : Outcome ε' α) = panic := rfl
@[simp] theorem ofOption_some (a : α) : ofOption (some a) = ok a := rfl
@[simp] theorem ofOption_none : ofOption (none : Option α) = none' := rfl

theorem ofOption_inj {x y : Option α} (h : ofOption x = ofOption y) : x = y := by
  cases x <;> cases y <;> cases h <;> rfl

theorem expect_eq_ok {x : Outcome ε α} {a : α} :
    (expect x : Outcome ε' α) = ok a ↔ x = ok a := by
  cases x <;> simp

theorem okOr_eq_ok {x : Opt α} {e : ε} {a : α} (h : okOr x e = ok a) : x = ok a := by
  cases x with
  | ok b =>
    cases h
    rfl
  | err _ => cases h
  | panic => cases h

theorem ofOption_eq_ok {x : Option α} {a : α} : ofOption x = ok a ↔ x = some a := by
  cases x <;> simp

/-- `if !p { return Err(e) }`. -/
def ensure (p : Prop) [Decidable p] (e : ε) : Outcome ε Unit := if p then ok () else err e

/-- An assertion whose failure panics. -/
def demand (p : Prop) [Decidable p] : Outcome ε Unit := if p then ok () else panic

theorem ensure_of {p : Prop} [Decidable p] {e : ε} (h : p) : ensure p e = ok () := if_pos h
theorem ensure_not {p : Prop} [Decidable p] {e : ε} (h : ¬ p) : ensure p e = err e := if_neg h
theorem demand_of {p : Prop} [Decidable p] (h : p) : (demand p : Outcome ε Unit) = ok () := if_pos h

@[simp] theorem ensure_eq_ok {p : Prop} [Decidable p] {e : ε} {u : Unit} :
    ensure p e = ok u ↔ p := by
  unfold ensure; split <;> simp_all

@[simp] theorem demand_eq_ok {p : Prop} [Decidable p] {u : Unit} :
    (demand p : Outcome ε Unit) = ok u ↔ p := by
  unfold demand; split <;> simp_all

end Outcome

open Outcome

/-! ## Machine arithmetic on `usize` (64 bits) and `u32` -/

section Arith

variable {ε : Type}

/-- Unchecked `a + b` on `usize`: an overflow panics. -/
def usizeAdd (a b : ℕ) : Outcome ε ℕ := if a + b < 2 ^ 64 then .ok (a + b) else .panic

/-- Unchecked `a - b` on `usize`. -/
def usizeSub (a b : ℕ) : Outcome ε ℕ := if b ≤ a then .ok (a - b) else .panic

/-- Unchecked `a * b` on `usize`. -/
def usizeMul (a b : ℕ) : Outcome ε ℕ := if a * b < 2 ^ 64 then .ok (a * b) else .panic

/-- Unchecked `a + b` on `u32`. -/
def u32Add (a b : ℕ) : Outcome ε ℕ := if a + b < 2 ^ 32 then .ok (a + b) else .panic

/-- `a.checked_add(b)` on `usize`. -/
def checkedAdd (a b : ℕ) : Opt ℕ := if a + b < 2 ^ 64 then .ok (a + b) else none'

/-- `a.checked_mul(b)` on `usize`. -/
def checkedMul (a b : ℕ) : Opt ℕ := if a * b < 2 ^ 64 then .ok (a * b) else none'

theorem usizeAdd_of {a b : ℕ} (h : a + b < 2 ^ 64) : (usizeAdd a b : Outcome ε ℕ) = .ok (a + b) :=
  if_pos h

theorem usizeSub_of {a b : ℕ} (h : b ≤ a) : (usizeSub a b : Outcome ε ℕ) = .ok (a - b) := if_pos h

theorem usizeMul_of {a b : ℕ} (h : a * b < 2 ^ 64) : (usizeMul a b : Outcome ε ℕ) = .ok (a * b) :=
  if_pos h

theorem checkedAdd_of {a b : ℕ} (h : a + b < 2 ^ 64) : checkedAdd a b = .ok (a + b) := if_pos h

theorem okOr_checkedAdd {a b c : ℕ} {e : ε} : okOr (checkedAdd a b) e = .ok c ↔ a + b = c ∧ c < 2 ^ 64 := by
  rw [checkedAdd]
  split
  · rw [okOr_ok, ok.injEq]
    exact ⟨fun h => ⟨h, by omega⟩, fun h => h.1⟩
  · refine iff_of_false (fun h => by cases h) ?_
    rintro ⟨rfl, h⟩
    contradiction

theorem checkedMul_of {a b : ℕ} (h : a * b < 2 ^ 64) : checkedMul a b = .ok (a * b) := if_pos h

end Arith

end Nyxis.Lib

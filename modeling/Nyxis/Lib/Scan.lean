import Nyxis.Lib.Safe

/-!
# Lib.Scan — a cursor over located rows

A cursor goes from one index to the next, locates the row, and yields it if it passes a test.  A row that
cannot be located ends the cursor.  `Located` says which rows it meets.

* `scan_eq`: where every test comes to a result, the rows yielded are those met that pass.
* `scan_eq_ok`: so they are whenever the cursor does not panic.
-/

namespace Nyxis.Lib

open Outcome

variable {α β : Type} (locate : ℕ → Opt α) (test : α → Opt Bool)

/-- The rows yielded from index `i` on, of which there are `n`. -/
def scan : ℕ → ℕ → Opt (List α)
  | 0, _ => .ok []
  | n + 1, i =>
    match locate i with
    | .ok a => do
      let hit ← test a
      let rest ← scan n (i + 1)
      .ok (if hit then a :: rest else rest)
    | .err _ => .ok []
    | .panic => .panic

/-- The rows that a cursor meets from index `i` on: as far as `n` rows are located. -/
structure Located (n i : ℕ) (rows : List α) : Prop where
  le : rows.length ≤ n
  found : ∀ (j : ℕ) a, rows[j]? = some a → locate (i + j) = .ok a
  stop : rows.length < n → locate (i + rows.length) = none'

variable {locate test}

theorem located_nil (i : ℕ) : Located locate 0 i [] where
  le := Nat.le_refl 0
  found j a h := by cases h
  stop h := absurd h (Nat.lt_irrefl 0)

theorem located_stop {n i : ℕ} (h : locate i = none') : Located locate (n + 1) i [] where
  le := Nat.zero_le _
  found j a h := by cases h
  stop _ := h

theorem Located.cons {n i : ℕ} {a : α} {rows : List α} (ha : locate i = .ok a) (h : Located locate n (i + 1) rows) :
    Located locate (n + 1) i (a :: rows) where
  le := Nat.succ_le_succ h.le
  found j b hb := by
    cases j with
    | zero =>
      cases hb
      exact ha
    | succ j =>
      have hj := h.found j b hb
      rwa [Nat.add_right_comm] at hj
  stop hlt := by
    have hstop := h.stop (Nat.lt_of_succ_lt_succ hlt)
    rwa [Nat.add_right_comm] at hstop

/-- The rows met that pass, where every test comes to a result. -/
theorem scan_eq {holds : α → Bool} : ∀ {n i : ℕ} {rows : List α}, Located locate n i rows →
    (∀ a ∈ rows, test a = .ok (holds a)) → scan locate test n i = .ok (rows.filter holds)
  | 0, i, rows, h, _ => by
    rw [List.eq_nil_of_length_eq_zero (Nat.le_zero.mp h.le)]
    rfl
  | n + 1, i, [], h, _ => by
    have hstop := h.stop (Nat.succ_pos n)
    rw [scan, show locate i = none' from hstop]
    rfl
  | n + 1, i, a :: rows, h, htest => by
    have ha : locate i = .ok a := h.found 0 a rfl
    have hrest : Located locate n (i + 1) rows := by
      refine ⟨Nat.le_of_succ_le_succ h.le, fun j b hb => ?_, fun hlt => ?_⟩
      · rw [Nat.add_right_comm]
        exact h.found (j + 1) b hb
      · rw [Nat.add_right_comm]
        exact h.stop (Nat.succ_lt_succ hlt)
    rw [scan, ha]
    dsimp only
    rw [htest a List.mem_cons_self, ok_bind,
      scan_eq hrest fun b hb => htest b (List.mem_cons_of_mem a hb), ok_bind, List.filter_cons]

/-- A cursor that does not panic has tested the rows it met. -/
theorem scan_eq_ok : ∀ {n i : ℕ} {out : List α}, (∀ a e, test a ≠ .err e) → scan locate test n i = .ok out →
    ∃ rows, Located locate n i rows ∧ (∀ a ∈ rows, ∃ hit, test a = .ok hit) ∧
      out = rows.filter fun a => test a == .ok true
  | 0, i, out, _, h => by
    cases h
    exact ⟨[], located_nil i, fun a ha => absurd ha List.not_mem_nil, rfl⟩
  | n + 1, i, out, herr, h => by
    rw [scan] at h
    cases ha : locate i with
    | panic =>
      rw [ha] at h
      cases h
    | err e =>
      rw [ha] at h
      cases h
      exact ⟨[], located_stop ha, fun a ha => absurd ha List.not_mem_nil, rfl⟩
    | ok a =>
      rw [ha] at h
      dsimp only at h
      obtain ⟨hit, hhit, h⟩ := bind_eq_ok.mp h
      obtain ⟨rest, hrest, h⟩ := bind_eq_ok.mp h
      cases h
      obtain ⟨rows, hrows, htested, rfl⟩ := scan_eq_ok herr hrest
      refine ⟨a :: rows, hrows.cons ha, fun b hb => ?_, ?_⟩
      · rcases List.mem_cons.mp hb with rfl | hb
        · exact ⟨hit, hhit⟩
        · exact htested b hb
      · rw [List.filter_cons, hhit]
        cases hit <;> rfl

theorem scan_ne_err (htest : ∀ a e, test a ≠ .err e) : ∀ (n i : ℕ) (e : Unit), scan locate test n i ≠ .err e
  | 0, _, _ => fun h => by cases h
  | n + 1, i, e => by
    rw [scan]
    cases locate i with
    | panic => exact fun h => by cases h
    | err e => exact fun h => by cases h
    | ok a =>
      dsimp only
      cases ha : test a with
      | err e' => exact absurd ha (htest a e')
      | panic => exact fun h => by cases h
      | ok hit =>
        rw [ok_bind]
        cases hrest : scan locate test n (i + 1) with
        | err e' => exact absurd hrest (scan_ne_err htest n (i + 1) e')
        | panic => exact fun h => by cases h
        | ok rest => exact fun h => by cases h

/-- Where each index has its row, a scan yields the rows of the indices that pass. -/
theorem filter_mapM (pass : α → Bool) {f : β → Opt α} {hit : β → Bool} : ∀ {l : List β} {rows : List α},
    l.mapM f = .ok rows → (∀ b ∈ l, ∀ a, f b = .ok a → pass a = hit b) →
      (l.filter hit).mapM f = .ok (rows.filter pass)
  | [], rows, h, _ => by
    cases h
    rfl
  | b :: l, rows, h, hpass => by
    rw [List.mapM_cons] at h
    obtain ⟨a, ha, h⟩ := bind_eq_ok.mp h
    obtain ⟨rest, hrest, h⟩ := bind_eq_ok.mp h
    cases h
    have ih := filter_mapM pass hrest fun b' hb' => hpass b' (List.mem_cons_of_mem b hb')
    rw [List.filter_cons, List.filter_cons, hpass b List.mem_cons_self a ha]
    cases hit b with
    | true =>
      rw [if_pos rfl, if_pos rfl, List.mapM_cons, ha, ok_bind, ih, ok_bind]
      rfl
    | false =>
      rw [if_neg Bool.false_ne_true, if_neg Bool.false_ne_true]
      exact ih

/-- A cursor that finds all of its rows. -/
theorem located_of_mapM {n : ℕ} {rows : List α} (h : (List.range n).mapM locate = .ok rows) : Located locate n 0 rows := by
  have hall := mapM_eq_ok.mp h
  have hlen : rows.length = n := by rw [← hall.length_eq, List.length_range]
  refine ⟨hlen.le, fun j a ha => ?_, fun hlt => absurd hlen (Nat.ne_of_lt hlt)⟩
  obtain ⟨hj, rfl⟩ := List.getElem?_eq_some_iff.mp ha
  have hget := hall.get (by rw [List.length_range]; omega) hj
  rw [List.get_eq_getElem, List.getElem_range] at hget
  rw [Nat.zero_add]
  exact hget

/-- A cursor does not panic if neither its rows nor its tests do. -/
theorem safe_scan {Q : α → Prop} : ∀ {n i : ℕ}, (∀ j, i ≤ j → j < i + n → Safe (locate j) Q) → (∀ a, Q a → Safe (test a) Any) →
    Safe (scan locate test n i) fun out => ∀ a ∈ out, Q a
  | 0, _, _, _ => safe_ok fun a ha => absurd ha List.not_mem_nil
  | n + 1, i, hlocate, htest => by
    have hi := hlocate i (Nat.le_refl i) (by omega)
    rw [scan]
    cases ha : locate i with
    | panic => exact absurd ha hi.ne_panic
    | err e => exact safe_ok fun a ha => absurd ha List.not_mem_nil
    | ok a =>
      have hQ := hi.post ha
      refine (htest a hQ).bind fun hit _ => ?_
      refine (safe_scan (fun j hj hlt => hlocate j (by omega) (by omega)) htest).bind fun rest hrest => ?_
      refine safe_ok fun b hb => ?_
      cases hit with
      | true =>
        rcases List.mem_cons.mp hb with rfl | hb
        · exact hQ
        · exact hrest b hb
      | false => exact hrest b hb

end Nyxis.Lib

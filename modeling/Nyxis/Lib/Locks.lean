import Mathlib.Data.List.Basic
import Mathlib.Data.Fintype.Defs
import Mathlib.Data.Set.Basic
import Mathlib.Logic.Function.Basic
import Mathlib.Order.WellFounded
import Nyxis.Lib.Runs

/-!
# Lib.Locks — threads that take and release mutexes

A program is the list of its lock and unlock actions.  A state says who owns each mutex and what each
thread still has to do; a step begins a program in an idle thread or carries out one action.  `Deadlock`
is a set of threads that each hold a mutex another of them waits for.  `Disciplined edge` checks the
order in which a program nests its locks, and `not_deadlock_of_rank` excludes a deadlock where the
mutexes waited for have a higher rank than those held.  Where the order has one cycle of two mutexes,
`Crossed` names the states in which two threads are bound to block each other.
-/

namespace Nyxis.Lib

variable {ι M P : Type}

/-- One action of a thread on a mutex. -/
inductive LockAct (M : Type) where
  | lock (m : M)
  | unlock (m : M)
  deriving DecidableEq, Repr

open LockAct

/-- `body` with the guard of `m` alive around it. -/
def guarded (m : M) (body : List (LockAct M)) : List (LockAct M) :=
  lock m :: (body ++ [unlock m])

/-- Who owns each mutex, and what each thread has still to do. -/
structure LockState (ι M : Type) where
  owner : M → Option ι
  todo : ι → List (LockAct M)

/-- A step of the system: an idle thread begins a program, or a thread carries out its next action. -/
inductive LockStep (ι P : Type) where
  | begin (t : ι) (p : P)
  | act (t : ι)

namespace LockState

variable {s s' : LockState ι M}

/-- Nothing is locked and no program is running. -/
def idle : LockState ι M := ⟨fun _ => none, fun _ => []⟩

/-- A thread that wants an owned mutex has no step. -/
def step [DecidableEq ι] [DecidableEq M] (acts : P → List (LockAct M)) (s : LockState ι M) :
    LockStep ι P → Option (LockState ι M)
  | .begin t p =>
    match s.todo t with
    | [] => some { s with todo := Function.update s.todo t (acts p) }
    | _ :: _ => none
  | .act t =>
    match s.todo t with
    | [] => none
    | lock m :: rest =>
      if s.owner m = none then
        some ⟨Function.update s.owner m (some t), Function.update s.todo t rest⟩
      else none
    | unlock m :: rest =>
      if s.owner m = some t then
        some ⟨Function.update s.owner m none, Function.update s.todo t rest⟩
      else none

/-- The next action of `t` is to lock `m`, which some thread owns. -/
def Waits (s : LockState ι M) (t : ι) (m : M) : Prop :=
  (s.owner m).isSome ∧ (s.todo t).head? = some (lock m)

/-- Some threads each hold a mutex that another of them waits for. -/
def Deadlock (s : LockState ι M) : Prop :=
  ∃ W : Set ι, W.Nonempty ∧
    ∀ t ∈ W, ∃ m, s.owner m = some t ∧ ∃ t' ∈ W, t' ≠ t ∧ s.Waits t' m

/-- What one step can do. -/
theorem step_cases [DecidableEq ι] [DecidableEq M] {acts : P → List (LockAct M)}
    {a : LockStep ι P} (h : s.step acts a = some s') :
    (∃ t p, a = .begin t p ∧ s.todo t = [] ∧
      s' = { s with todo := Function.update s.todo t (acts p) }) ∨
    (∃ t m rest, a = .act t ∧ s.todo t = lock m :: rest ∧ s.owner m = none ∧
      s' = ⟨Function.update s.owner m (some t), Function.update s.todo t rest⟩) ∨
    (∃ t m rest, a = .act t ∧ s.todo t = unlock m :: rest ∧ s.owner m = some t ∧
      s' = ⟨Function.update s.owner m none, Function.update s.todo t rest⟩) := by
  cases a with
  | begin t p =>
    cases htodo : s.todo t with
    | nil =>
      simp only [step, htodo, Option.some.injEq] at h
      exact .inl ⟨t, p, rfl, htodo, h.symm⟩
    | cons b rest => simp [step, htodo] at h
  | act t =>
    cases htodo : s.todo t with
    | nil => simp [step, htodo] at h
    | cons b rest =>
      cases b with
      | lock m =>
        simp only [step, htodo, Option.ite_none_right_eq_some, Option.some.injEq] at h
        exact .inr (.inl ⟨t, m, rest, rfl, htodo, h.1, h.2.symm⟩)
      | unlock m =>
        simp only [step, htodo, Option.ite_none_right_eq_some, Option.some.injEq] at h
        exact .inr (.inr ⟨t, m, rest, rfl, htodo, h.1, h.2.symm⟩)

/-- A rank that grows from each mutex held to the mutex waited for leaves no deadlock. -/
theorem not_deadlock_of_rank (rank : M → ℕ)
    (h : ∀ t m m', s.owner m = some t → s.Waits t m' → rank m < rank m') : ¬ s.Deadlock := by
  rintro ⟨W, ⟨t₀, ht₀⟩, hW⟩
  -- the ranks of the mutexes that the set holds and waits for have a least element
  let ranks : Set ℕ := {n | ∃ t ∈ W, ∃ m, s.owner m = some t ∧ rank m = n ∧ ∃ t' ∈ W, s.Waits t' m}
  have hne : ranks.Nonempty := by
    obtain ⟨m, hm, t', ht', -, hwait⟩ := hW t₀ ht₀
    exact ⟨rank m, t₀, ht₀, m, hm, rfl, t', ht', hwait⟩
  obtain ⟨n, ⟨t, -, m, -, rfl, t', ht', hwait⟩, hmin⟩ := wellFounded_lt.has_min ranks hne
  obtain ⟨m', hm', u, hu, -, hwait'⟩ := hW t' ht'
  exact hmin (rank m') ⟨t', ht', m', hm', rfl, u, hu, hwait'⟩ (h t' m' m hm' hwait)

end LockState

/-! ### The order in which a program nests its locks -/

section Discipline

variable [DecidableEq M] (edge : M → M → Prop)

/-- The actions lead from the mutexes `held` to those of `out`, release only what is held, and lock a
mutex only under mutexes with an edge to it. -/
def Disciplined : List M → List (LockAct M) → List M → Prop
  | held, [], out => held = out
  | held, lock m :: rest, out => (∀ h ∈ held, edge h m) ∧ Disciplined (m :: held) rest out
  | held, unlock m :: rest, out => m ∈ held ∧ Disciplined (held.erase m) rest out

variable {edge}

theorem Disciplined.append {held mid out : List M} {as bs : List (LockAct M)}
    (ha : Disciplined edge held as mid) (hb : Disciplined edge mid bs out) :
    Disciplined edge held (as ++ bs) out := by
  induction as generalizing held with
  | nil =>
    cases ha
    exact hb
  | cons a as ih =>
    cases a with
    | lock m => exact ⟨ha.1, ih ha.2⟩
    | unlock m => exact ⟨ha.1, ih ha.2⟩

theorem Disciplined.guarded {held : List M} {m : M} {body : List (LockAct M)}
    (hedge : ∀ h ∈ held, edge h m) (hbody : Disciplined edge (m :: held) body (m :: held)) :
    Disciplined edge held (guarded m body) held := by
  have hend : Disciplined edge (m :: held) [unlock m] held :=
    ⟨List.mem_cons_self, List.erase_cons_head m held⟩
  exact ⟨hedge, hbody.append hend⟩

theorem Disciplined.flatMap {α : Type} {held : List M} {xs : List α} {f : α → List (LockAct M)}
    (h : ∀ x ∈ xs, Disciplined edge held (f x) held) :
    Disciplined edge held (xs.flatMap f) held := by
  induction xs with
  | nil => exact rfl
  | cons x xs ih =>
    exact (h x List.mem_cons_self).append (ih fun y hy => h y (List.mem_cons_of_mem x hy))

theorem Disciplined.ite {held out : List M} {c : Prop} [Decidable c] {as bs : List (LockAct M)}
    (ha : Disciplined edge held as out) (hb : Disciplined edge held bs out) :
    Disciplined edge held (if c then as else bs) out := by
  split
  · exact ha
  · exact hb

variable (edge)

/-- Each thread owns what its program has locked so far, and the rest of the program is disciplined. -/
def LockState.Orderly (s : LockState ι M) : Prop :=
  ∀ t, ∃ held : List M, held.Nodup ∧ (∀ m, s.owner m = some t ↔ m ∈ held) ∧
    Disciplined edge held (s.todo t) []

variable {edge} {s s' : LockState ι M} {acts : P → List (LockAct M)}

theorem LockState.orderly_idle : (idle : LockState ι M).Orderly edge := fun _ =>
  ⟨[], List.nodup_nil, fun _ => ⟨(nomatch ·), (nomatch ·)⟩, rfl⟩

theorem LockState.orderly_step [DecidableEq ι] (hacts : ∀ p, Disciplined edge [] (acts p) []) {a : LockStep ι P}
    (h : s.Orderly edge) (hs : s.step acts a = some s') : s'.Orderly edge := by
  intro u
  obtain ⟨held, hnd, hown, hdis⟩ := h u
  obtain ⟨t, p, -, htodo, rfl⟩ | ⟨t, m, rest, -, htodo, hfree, rfl⟩ |
    ⟨t, m, rest, -, htodo, hmine, rfl⟩ := step_cases hs
  · by_cases hut : u = t
    · subst hut
      rw [htodo] at hdis
      cases hdis
      refine ⟨[], hnd, hown, ?_⟩
      simpa using hacts p
    · exact ⟨held, hnd, hown, by simpa [Function.update_of_ne hut] using hdis⟩
  · by_cases hut : u = t
    · subst hut
      rw [htodo] at hdis
      have hm : m ∉ held := fun hin => by simp [(hown m).mpr hin] at hfree
      refine ⟨m :: held, List.nodup_cons.mpr ⟨hm, hnd⟩, fun m' => ?_, by simpa using hdis.2⟩
      by_cases hmm : m' = m
      · simp [hmm]
      · simp [hmm, hown m']
    · refine ⟨held, hnd, fun m' => ?_, by simpa [Function.update_of_ne hut] using hdis⟩
      by_cases hmm : m' = m
      · subst hmm
        have hm : m' ∉ held := fun hin => by simp [(hown m').mpr hin] at hfree
        simp [hm, Ne.symm hut]
      · simp [hmm, hown m']
  · by_cases hut : u = t
    · subst hut
      rw [htodo] at hdis
      refine ⟨held.erase m, hnd.erase m, fun m' => ?_, by simpa using hdis.2⟩
      by_cases hmm : m' = m
      · subst hmm
        simp [hnd.not_mem_erase]
      · simp [hmm, hown m', List.mem_erase_of_ne hmm]
    · refine ⟨held, hnd, fun m' => ?_, by simpa [Function.update_of_ne hut] using hdis⟩
      by_cases hmm : m' = m
      · subst hmm
        have hm : m' ∉ held := fun hin => by
          rw [(hown m').mpr hin, Option.some.injEq] at hmine
          exact hut hmine
        simp [hm]
      · simp [hmm, hown m']

/-- What a thread waits for lies behind an edge from each mutex it holds. -/
theorem LockState.Orderly.edge_of_waits {t : ι} {m m' : M} (h : s.Orderly edge)
    (hm : s.owner m = some t) (hw : s.Waits t m') : edge m m' := by
  obtain ⟨held, -, hown, hdis⟩ := h t
  obtain ⟨rest, hrest⟩ : ∃ rest, s.todo t = lock m' :: rest := List.head?_eq_some_iff.mp hw.2
  rw [hrest] at hdis
  exact hdis.1 m ((hown m).mp hm)

/-- A thread with nothing to do holds nothing. -/
theorem LockState.Orderly.not_owner_of_done {t : ι} {m : M} (h : s.Orderly edge)
    (hdone : s.todo t = []) : s.owner m ≠ some t := by
  obtain ⟨held, -, hown, hdis⟩ := h t
  rw [hdone] at hdis
  cases hdis
  exact fun hm => nomatch (hown m).mp hm

end Discipline

/-! ### Two mutexes taken in both orders -/

section Crossing

variable [DecidableEq M] {s s' : LockState ι M} {a b : M}

/-- `b` is locked before the next release of `a`. -/
def Comes (b a : M) (todo : List (LockAct M)) : Prop :=
  lock b ∈ todo.takeWhile (· ≠ unlock a)

instance (todo : List (LockAct M)) : Decidable (Comes b a todo) :=
  inferInstanceAs (Decidable (_ ∈ _))

theorem Comes.of_tail {x : LockAct M} {rest : List (LockAct M)} (hx : x ≠ unlock a)
    (h : Comes b a rest) : Comes b a (x :: rest) := by
  simp only [Comes, List.takeWhile_cons, decide_not, hx, decide_false, Bool.not_false, if_true]
  exact List.mem_cons_of_mem x (by simpa [Comes] using h)

theorem Comes.tail {x : LockAct M} {rest : List (LockAct M)} (hx : x ≠ lock b)
    (h : Comes b a (x :: rest)) : x ≠ unlock a ∧ Comes b a rest := by
  by_cases hxa : x = unlock a
  · subst hxa
    simp [Comes] at h
  · refine ⟨hxa, ?_⟩
    simpa [Comes, List.takeWhile_cons, hxa, Ne.symm hx] using h

namespace LockState

/-- `t` holds `a` and locks `b` before it lets `a` go. -/
def Heads (s : LockState ι M) (t : ι) (a b : M) : Prop :=
  s.owner a = some t ∧ Comes b a (s.todo t)

instance [DecidableEq ι] (t : ι) : Decidable (s.Heads t a b) :=
  inferInstanceAs (Decidable (_ ∧ _))

/-- Two threads each hold one of the mutexes and lock the other before they let theirs go. -/
def Crossed (s : LockState ι M) (a b : M) : Prop :=
  ∃ t u, t ≠ u ∧ s.Heads t a b ∧ s.Heads u b a

/-- The step does not take `a` on the way to `b` while another thread is on the way from `b` to `a`, nor
`b` on the way to `a` while another is on the way from `a` to `b`. -/
def Uncrossing (a b : M) (s : LockState ι M) : LockStep ι P → Prop
  | .begin _ _ => True
  | .act t =>
    ((s.todo t).head? = some (lock a) → Comes b a (s.todo t).tail →
      ∀ u, t ≠ u → ¬ s.Heads u b a) ∧
    ((s.todo t).head? = some (lock b) → Comes a b (s.todo t).tail →
      ∀ u, t ≠ u → ¬ s.Heads u a b)

instance [Fintype ι] [DecidableEq ι] (st : LockStep ι P) : Decidable (Uncrossing a b s st) :=
  match st with
  | .begin _ _ => isTrue trivial
  | .act _ => inferInstanceAs (Decidable (_ ∧ _))

variable {edge : M → M → Prop} {acts : P → List (LockAct M)}

theorem Waits.comes {t : ι} (h : s.Waits t b) : Comes b a (s.todo t) := by
  obtain ⟨rest, hrest⟩ := List.head?_eq_some_iff.mp h.2
  simp [Comes, hrest]

/-- Where the only cycle of the locking order runs through `a` and `b`, an uncrossed state has no
deadlock: one of the two ranks fits, since nobody who holds the one mutex waits for the other. -/
theorem Orderly.not_deadlock (hab : a ≠ b) (h : s.Orderly edge) (hcross : ¬ s.Crossed a b)
    (rank rank' : M → ℕ) (hrank : ∀ m m', edge m m' → ¬ (m = b ∧ m' = a) → rank m < rank m')
    (hrank' : ∀ m m', edge m m' → ¬ (m = a ∧ m' = b) → rank' m < rank' m') : ¬ s.Deadlock := by
  by_cases hheads : ∃ t, s.Heads t a b
  · obtain ⟨t, ht⟩ := hheads
    refine not_deadlock_of_rank rank fun u m m' hm hw => hrank m m' (h.edge_of_waits hm hw) ?_
    rintro ⟨rfl, rfl⟩
    refine hcross ⟨t, u, ?_, ht, hm, hw.comes⟩
    rintro rfl
    exact absurd (hrank m' m' (h.edge_of_waits ht.1 hw) fun heq => hab heq.1) (lt_irrefl _)
  · refine not_deadlock_of_rank rank' fun t m m' hm hw => hrank' m m' (h.edge_of_waits hm hw) ?_
    rintro ⟨rfl, rfl⟩
    exact hheads ⟨t, hm, hw.comes⟩

variable [DecidableEq ι] {st : LockStep ι P}

/-- A thread is on its way from `a` to `b` because it was before, or because it has just locked `a`. -/
theorem heads_cases {u : ι} (h : s.Orderly edge) (hs : s.step acts st = some s')
    (hu : s'.Heads u a b) :
    s.Heads u a b ∨
      st = .act u ∧ (s.todo u).head? = some (lock a) ∧ Comes b a (s.todo u).tail := by
  obtain ⟨hown, hcomes⟩ := hu
  obtain ⟨t, p, -, htodo, rfl⟩ | ⟨t, m, rest, rfl, htodo, hfree, rfl⟩ |
    ⟨t, m, rest, rfl, htodo, hmine, rfl⟩ := step_cases hs
  · by_cases hut : u = t
    · subst hut
      exact absurd hown (h.not_owner_of_done htodo)
    · exact .inl ⟨hown, by simpa [Function.update_of_ne hut] using hcomes⟩
  · by_cases hut : u = t
    · subst hut
      have hrest : Comes b a rest := by simpa using hcomes
      by_cases ham : a = m
      · subst ham
        exact .inr ⟨rfl, by simp [htodo], by simpa [htodo] using hrest⟩
      · refine .inl ⟨by simpa [ham] using hown, ?_⟩
        rw [htodo]
        exact hrest.of_tail nofun
    · by_cases ham : a = m
      · subst ham
        exact absurd (by simpa using hown) (Ne.symm hut)
      · exact .inl ⟨by simpa [ham] using hown, by simpa [Function.update_of_ne hut] using hcomes⟩
  · have ham : a ≠ m := by
      rintro rfl
      simp at hown
    by_cases hut : u = t
    · subst hut
      refine .inl ⟨by simpa [ham] using hown, ?_⟩
      rw [htodo]
      have hrest : Comes b a rest := by simpa using hcomes
      exact hrest.of_tail (by simpa using Ne.symm ham)
    · exact .inl ⟨by simpa [ham] using hown, by simpa [Function.update_of_ne hut] using hcomes⟩

theorem uncrossed_step (h : s.Orderly edge) (hok : Uncrossing a b s st)
    (hs : s.step acts st = some s') (hcross : ¬ s.Crossed a b) : ¬ s'.Crossed a b := by
  rintro ⟨t, u, htu, ht, hu⟩
  rcases heads_cases h hs ht with ht | ⟨rfl, hta, htb⟩
  · rcases heads_cases h hs hu with hu | ⟨rfl, hub, hua⟩
    · exact hcross ⟨t, u, htu, ht, hu⟩
    · exact hok.2 hub hua t htu.symm ht
  · rcases heads_cases h hs hu with hu | ⟨heq, -, -⟩
    · exact hok.1 hta htb u htu hu
    · cases heq
      exact htu rfl

/-! A step outside the condition blocks two threads for good. -/

/-- While `b` is owned, a thread on its way from `a` to `b` stays where it is or comes nearer. -/
theorem Heads.stays {t : ι} (h : s.Heads t a b) (hb : (s.owner b).isSome)
    (hs : s.step acts st = some s') : s'.Heads t a b := by
  obtain ⟨hown, hcomes⟩ := h
  obtain ⟨u, p, -, htodo, rfl⟩ | ⟨u, m, rest, -, htodo, hfree, rfl⟩ |
    ⟨u, m, rest, -, htodo, hmine, rfl⟩ := step_cases hs
  · have htu : t ≠ u := by
      rintro rfl
      simp [htodo, Comes] at hcomes
    exact ⟨hown, by simpa [Function.update_of_ne htu] using hcomes⟩
  · have ham : a ≠ m := by
      rintro rfl
      simp [hfree] at hown
    have hbm : b ≠ m := by
      rintro rfl
      simp [hfree] at hb
    refine ⟨by simpa [ham] using hown, ?_⟩
    by_cases htu : t = u
    · subst htu
      rw [htodo] at hcomes
      simpa using (hcomes.tail (by simpa using Ne.symm hbm)).2
    · simpa [Function.update_of_ne htu] using hcomes
  · by_cases htu : t = u
    · subst htu
      rw [htodo] at hcomes
      have hne : unlock m ≠ lock b := nofun
      obtain ⟨hma, hrest⟩ := hcomes.tail hne
      have ham : a ≠ m := fun heq => hma (by rw [heq])
      exact ⟨by simpa [ham] using hown, by simpa using hrest⟩
    · have ham : a ≠ m := by
        rintro rfl
        rw [hown, Option.some.injEq] at hmine
        exact htu hmine
      exact ⟨by simpa [ham] using hown, by simpa [Function.update_of_ne htu] using hcomes⟩

theorem Crossed.stays (h : s.Crossed a b) (hs : s.step acts st = some s') : s'.Crossed a b := by
  obtain ⟨t, u, htu, ht, hu⟩ := h
  exact ⟨t, u, htu, ht.stays (by simp [hu.1]) hs, hu.stays (by simp [ht.1]) hs⟩

/-- A thread that has just locked `a` on its way to `b` is crossed with one that comes the other way. -/
theorem crossed_of_lock {t u : ι} (hab : a ≠ b) (htu : t ≠ u)
    (hhead : (s.todo t).head? = some (lock a)) (hcomes : Comes b a (s.todo t).tail)
    (hu : s.Heads u b a) (hs : s.step acts (.act t) = some s') :
    s'.Heads t a b ∧ s'.Heads u b a := by
  obtain ⟨rest, hrest⟩ := List.head?_eq_some_iff.mp hhead
  rw [hrest, List.tail_cons] at hcomes
  simp only [step, hrest, Option.ite_none_right_eq_some, Option.some.injEq] at hs
  obtain ⟨-, rfl⟩ := hs
  refine ⟨⟨by simp, by simpa using hcomes⟩, ?_, ?_⟩
  · simpa [hab.symm] using hu.1
  · simpa [Function.update_of_ne htu.symm] using hu.2

theorem crossed_of_not_uncrossing (hab : a ≠ b) (hno : ¬ Uncrossing a b s st)
    (hs : s.step acts st = some s') : s'.Crossed a b := by
  cases st with
  | begin t p => exact absurd trivial hno
  | act t =>
    simp only [Uncrossing, Classical.not_and_iff_not_or_not, Classical.not_imp,
      not_forall, not_not] at hno
    obtain ⟨hhead, hcomes, u, htu, hu⟩ | ⟨hhead, hcomes, u, htu, hu⟩ := hno
    · obtain ⟨ht', hu'⟩ := crossed_of_lock hab htu hhead hcomes hu hs
      exact ⟨t, u, htu, ht', hu'⟩
    · obtain ⟨ht', hu'⟩ := crossed_of_lock hab.symm htu hhead hcomes hu hs
      exact ⟨u, t, htu.symm, hu', ht'⟩

end LockState

end Crossing

end Nyxis.Lib

import Mathlib.Data.Nat.Notation

/-!
# Lib.Calendar — the days of the Gregorian calendar

`dayNumber` counts the days from the first day of year 0, year by year and month by month.

* `daysToYear_eq`, `daysToMonth_eq`: the days in front of a year and of a month in closed form.
-/

namespace Nyxis.Lib

/-- A year divisible by 4 is a leap year, but a century only where it is divisible by 400. -/
def isLeap (y : ℕ) : Bool := y % 4 == 0 && (y % 100 != 0 || y % 400 == 0)

def daysInMonth (y m : ℕ) : ℕ :=
  if m = 2 then if isLeap y then 29 else 28
  else if m = 4 ∨ m = 6 ∨ m = 9 ∨ m = 11 then 30
  else 31

def daysInYear (y : ℕ) : ℕ := if isLeap y then 366 else 365

/-- The days of the years in front of a year. -/
def daysToYear : ℕ → ℕ
  | 0 => 0
  | y + 1 => daysToYear y + daysInYear y

/-- The days of the first `m` months of a year. -/
def daysToMonth (y : ℕ) : ℕ → ℕ
  | 0 => 0
  | m + 1 => daysToMonth y m + daysInMonth y (m + 1)

/-- The days from the first day of year 0 to a date. -/
def dayNumber (y m d : ℕ) : ℕ := daysToYear y + daysToMonth y (m - 1) + (d - 1)

/-- A day of the calendar. -/
structure IsDate (y m d : ℕ) : Prop where
  month : 1 ≤ m ∧ m ≤ 12
  day : 1 ≤ d ∧ d ≤ daysInMonth y m

instance (y m d : ℕ) : Decidable (IsDate y m d) := decidable_of_iff (_ ∧ _) ⟨fun h => ⟨h.1, h.2⟩, fun h => ⟨h.1, h.2⟩⟩

theorem isLeap_iff (y : ℕ) : isLeap y = true ↔ y % 4 = 0 ∧ (y % 100 ≠ 0 ∨ y % 400 = 0) := by
  simp [isLeap]

/-- A day for every leap year in front. -/
theorem daysToYear_eq : ∀ y, daysToYear y + (y + 99) / 100 = 365 * y + (y + 3) / 4 + (y + 399) / 400
  | 0 => rfl
  | y + 1 => by
    have ih := daysToYear_eq y
    rw [daysToYear, daysInYear]
    by_cases h : isLeap y = true
    · rw [if_pos h]
      rw [isLeap_iff] at h
      omega
    · rw [if_neg h]
      rw [isLeap_iff] at h
      omega

/-- The days in front of a month, by the formula for months that start in March. -/
theorem daysToMonth_eq (y : ℕ) {m : ℕ} (h : 3 ≤ m) (h' : m ≤ 12) :
    daysToMonth y (m - 1) = (153 * (m - 3) + 2) / 5 + 59 + if isLeap y then 1 else 0 := by
  have hcases : m = 3 ∨ m = 4 ∨ m = 5 ∨ m = 6 ∨ m = 7 ∨ m = 8 ∨ m = 9 ∨ m = 10 ∨ m = 11 ∨ m = 12 := by omega
  have hfeb : daysInMonth y 2 = 28 + if isLeap y then 1 else 0 := by
    rw [daysInMonth, if_pos rfl]
    split <;> rfl
  have hother : ∀ m, m ≠ 2 → daysInMonth y m = if m = 4 ∨ m = 6 ∨ m = 9 ∨ m = 11 then 30 else 31 := fun m hm => if_neg hm
  rcases hcases with rfl | rfl | rfl | rfl | rfl | rfl | rfl | rfl | rfl | rfl
  all_goals
    simp [daysToMonth, hfeb, hother]
  all_goals
    omega

end Nyxis.Lib

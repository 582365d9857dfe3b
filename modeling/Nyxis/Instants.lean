import Mathlib.Data.List.Induction
import Nyxis.Lib.Calendar
import Nyxis.Literals
import Nyxis.Temporal

/-!
# Instants — what literal times denote

`DenotesInstant` is the grammar of times with the instants they stand for.  `parseTemporal` reads more than that: separators
it does not look at, signed numbers, days that no month has.

* `daysSinceEpoch_eq`: on dates of the calendar the formula for days is right.
* `parseTemporal_eq_ok`: what is read, and as what.
* `temporal_exact_iff`: the texts on which the two agree.
-/

namespace Nyxis

open Lib Lib.Outcome

theorem dayNumber_epoch : dayNumber 1970 1 1 = 719528 := by
  -- with the year as a variable, so that its days are not counted one by one
  have hyear : ∀ y, y = 1970 → dayNumber y 1 1 = 719528 := fun y hy => by
    have hto := daysToYear_eq y
    rw [dayNumber, show daysToMonth y (1 - 1) = 0 from rfl]
    omega
  exact hyear 1970 rfl

/-- The days of the years since the year -4799, which the formula starts at. -/
theorem yearDays_eq (y : ℕ) : 365 * ((y : ℤ) + 4799) + ((y : ℤ) + 4799) / 4 - ((y : ℤ) + 4799) / 100 + ((y : ℤ) + 4799) / 400 =
    daysToYear y + 1752798 := by
  have hy := daysToYear_eq y
  have h4 : ((y : ℤ) + 4799) / 4 = ((y + 3) / 4 : ℕ) + 1199 := by omega
  have h100 : ((y : ℤ) + 4799) / 100 = ((y + 99) / 100 : ℕ) + 47 := by omega
  have h400 : ((y : ℤ) + 4799) / 400 = ((y + 399) / 400 : ℕ) + 11 := by omega
  rw [h4, h100, h400]
  omega

/-- The formula counts the days of the calendar. -/
theorem daysSinceEpoch_eq {y m d : ℕ} (h : IsDate y m d) : daysSinceEpoch y m d = (dayNumber y m d : ℤ) - dayNumber 1970 1 1 := by
  obtain ⟨⟨hm, hm'⟩, hd, -⟩ := h
  have ha : (14 - (m : ℤ)).tdiv 12 = if m ≤ 2 then 1 else 0 := by
    rw [Int.tdiv_eq_ediv_of_nonneg (by omega)]
    split <;> omega
  rw [dayNumber_epoch, daysSinceEpoch, ha, dayNumber]
  by_cases hfeb : m ≤ 2
  · have hmonth : daysToMonth y (m - 1) = 31 * (m - 1) := by
      obtain rfl | rfl : m = 1 ∨ m = 2 := by omega
      · rfl
      · rfl
    have hyear := yearDays_eq y
    rw [if_pos hfeb, hmonth, show (y : ℤ) + 4800 - 1 = y + 4799 by omega, Int.tdiv_eq_ediv_of_nonneg (by omega),
      Int.tdiv_eq_ediv_of_nonneg (by omega), Int.tdiv_eq_ediv_of_nonneg (by omega), Int.tdiv_eq_ediv_of_nonneg (by omega)]
    omega
  · have hyear := yearDays_eq (y + 1)
    rw [daysToYear, daysInYear] at hyear
    rw [show ((y + 1 : ℕ) : ℤ) + 4799 = y + 4800 by omega] at hyear
    rw [if_neg hfeb, daysToMonth_eq y (by omega) hm', show (y : ℤ) + 4800 - 0 = y + 4800 by omega,
      Int.tdiv_eq_ediv_of_nonneg (by omega), Int.tdiv_eq_ediv_of_nonneg (by omega), Int.tdiv_eq_ediv_of_nonneg (by omega),
      Int.tdiv_eq_ediv_of_nonneg (by omega)]
    split at hyear <;> rename_i hl
    · rw [if_pos hl]
      omega
    · rw [if_neg hl]
      omega

/-! ## Slices of text -/

theorem byteLen_append (a b : List Char) : byteLen (a ++ b) = byteLen a + byteLen b := by
  rw [byteLen, byteLen, byteLen, List.map_append, List.sum_append]

theorem byteLen_cons (c : Char) (l : List Char) : byteLen (c :: l) = c.utf8Size + byteLen l := rfl

theorem length_le_byteLen : ∀ l : List Char, l.length ≤ byteLen l
  | [] => Nat.le_refl 0
  | c :: l => by
    have hpos := c.utf8Size_pos
    have ih := length_le_byteLen l
    rw [byteLen_cons, List.length_cons]
    omega

/-- A text is split where a character ends. -/
theorem splitBytes_eq_some : ∀ {l a b : List Char} {n : ℕ}, splitBytes l n = some (a, b) ↔ l = a ++ b ∧ byteLen a = n
  | l, a, b, 0 => by
    have hnil : byteLen a = 0 ↔ a = [] := by
      cases a with
      | nil => exact iff_of_true rfl rfl
      | cons c a =>
        have hpos := c.utf8Size_pos
        rw [byteLen_cons]
        exact iff_of_false (by omega) (by simp)
    rw [hnil]
    cases l <;> simp only [splitBytes, Option.some.injEq, Prod.mk.injEq] <;> constructor
    all_goals
      first
        | rintro ⟨rfl, rfl⟩; exact ⟨rfl, rfl⟩
        | rintro ⟨h, rfl⟩; exact ⟨rfl, h⟩
  | [], a, b, n + 1 => by
    rw [splitBytes]
    refine iff_of_false (fun h => by cases h) ?_
    rintro ⟨h, hn⟩
    rw [(List.nil_eq_append_iff.mp h).1] at hn
    cases hn
  | c :: l, a, b, n + 1 => by
    have hpos := c.utf8Size_pos
    rw [splitBytes]
    by_cases hc : c.utf8Size ≤ n + 1
    · rw [if_pos hc, Option.map_eq_some_iff]
      constructor
      · rintro ⟨⟨a', b'⟩, h, heq⟩
        cases heq
        obtain ⟨rfl, hlen⟩ := splitBytes_eq_some.mp h
        refine ⟨rfl, ?_⟩
        rw [byteLen_cons]
        omega
      · rintro ⟨h, hlen⟩
        cases a with
        | nil => cases hlen
        | cons c' a =>
          cases h
          rw [byteLen_cons] at hlen
          exact ⟨(a, b), splitBytes_eq_some.mpr ⟨rfl, by omega⟩, rfl⟩
    · rw [if_neg hc]
      refine iff_of_false (fun h => by cases h) ?_
      rintro ⟨h, hlen⟩
      cases a with
      | nil => cases hlen
      | cons c' a =>
        cases h
        rw [byteLen_cons] at hlen
        omega

theorem suffixFrom_eq_some {s t : List Char} {n : ℕ} : suffixFrom s n = some t ↔ ∃ pre, s = pre ++ t ∧ byteLen pre = n := by
  rw [suffixFrom, Option.map_eq_some_iff]
  constructor
  · rintro ⟨⟨a, b⟩, h, rfl⟩
    exact ⟨a, splitBytes_eq_some.mp h⟩
  · rintro ⟨pre, h⟩
    exact ⟨(pre, t), splitBytes_eq_some.mpr h, rfl⟩

/-- The front of a text is the same for the same number of bytes. -/
theorem front_unique {a a' b b' : List Char} (h : a ++ b = a' ++ b') (hlen : byteLen a = byteLen a') : a = a' ∧ b = b' := by
  have hsplit := splitBytes_eq_some.mpr ⟨h, hlen.symm⟩
  rw [splitBytes_eq_some.mpr ⟨rfl, rfl⟩] at hsplit
  cases hsplit
  exact ⟨rfl, rfl⟩

theorem sliceStr_eq_ok {s t : List Char} {m n : ℕ} :
    sliceStr s m n = .ok t ↔ ∃ pre post, s = pre ++ (t ++ post) ∧ byteLen pre = m ∧ byteLen t = n - m := by
  unfold sliceStr
  cases hfrom : suffixFrom s m with
  | none =>
    refine iff_of_false (fun h => by cases h) ?_
    rintro ⟨pre, post, h, hlen, -⟩
    rw [suffixFrom_eq_some.mpr ⟨pre, h, hlen⟩] at hfrom
    cases hfrom
  | some rest =>
    obtain ⟨pre, hs, hpre⟩ := suffixFrom_eq_some.mp hfrom
    rw [Option.bind_some]
    constructor
    · intro h
      split at h
      · rename_i t' post hsplit
        cases h
        obtain ⟨hrest, hlen⟩ := splitBytes_eq_some.mp hsplit
        exact ⟨pre, post, by rw [hs, hrest], hpre, hlen⟩
      · cases h
    · rintro ⟨pre', post, hs', hpre', hlen⟩
      obtain ⟨-, hrest⟩ := front_unique (hs.symm.trans hs') (hpre.trans hpre'.symm)
      rw [splitBytes_eq_some.mpr ⟨hrest, hlen⟩]

/-! ## Numbers in a text -/

/-- Digits, behind a sign or not. -/
def IsInt (t : List Char) : Prop := (splitSign t).2 ≠ [] ∧ ∀ c ∈ (splitSign t).2, c.isDigit = true

/-- The number that such a text stands for. -/
def intOf (t : List Char) : ℤ := if (splitSign t).1 then -digitsNat (splitSign t).2 else digitsNat (splitSign t).2

/-- A number of `n` digits. -/
def Digits (n : ℕ) (t : List Char) : Prop := t.length = n ∧ ∀ c ∈ t, c.isDigit = true

theorem isInt_of_digits {t : List Char} (hne : t ≠ []) (h : ∀ c ∈ t, c.isDigit = true) : IsInt t ∧ intOf t = digitsNat t := by
  rw [IsInt, intOf, splitSign_digits h]
  exact ⟨⟨hne, h⟩, rfl⟩

theorem parseI64_eq_some {t : List Char} {n : Int64} : parseI64 t = some n ↔ IsInt t ∧ InI64 (intOf t) ∧ n.toInt = intOf t := by
  have hof : ∀ k : ℤ, InI64 k → (Int64.ofInt k).toInt = k := fun k hk => Int64.toInt_ofInt_of_le hk.1 hk.2
  have hsome : ∀ k : ℤ, InI64 k → (some (Int64.ofInt k) = some n ↔ n.toInt = k) := fun k hk => by
    rw [Option.some.injEq, ← Int64.toInt_inj, hof k hk, eq_comm]
  rw [parseI64, IsInt, intOf]
  dsimp only
  by_cases hint : (splitSign t).2 ≠ [] ∧ ∀ c ∈ (splitSign t).2, c.isDigit = true
  · have hall : ((splitSign t).2.isEmpty || !(splitSign t).2.all Char.isDigit) = false := by
      rw [List.isEmpty_eq_false_iff.mpr hint.1, List.all_eq_true.mpr hint.2]
      rfl
    rw [hall, if_neg Bool.false_ne_true, and_iff_right hint]
    generalize digitsNat (splitSign t).2 = k
    cases (splitSign t).1 with
    | true =>
      rw [if_pos rfl, if_pos rfl]
      by_cases hk : k ≤ 2 ^ 63
      · have hin : InI64 (-k : ℤ) := ⟨by omega, by omega⟩
        rw [if_pos hk, hsome _ hin, and_iff_right hin]
      · rw [if_neg hk]
        refine iff_of_false (fun h => by cases h) ?_
        rintro ⟨⟨hlo, -⟩, -⟩
        omega
    | false =>
      rw [if_neg Bool.false_ne_true, if_neg Bool.false_ne_true]
      by_cases hk : k < 2 ^ 63
      · have hin : InI64 (k : ℤ) := ⟨by omega, by omega⟩
        rw [if_pos hk, ← Int64.ofInt_eq_ofNat, hsome _ hin, and_iff_right hin]
      · rw [if_neg hk]
        refine iff_of_false (fun h => by cases h) ?_
        rintro ⟨⟨-, hhi⟩, -⟩
        omega
  · have hall : ((splitSign t).2.isEmpty || !(splitSign t).2.all Char.isDigit) = true := by
      rw [Bool.or_eq_true, List.isEmpty_iff, Bool.not_eq_true', ← Bool.not_eq_true, List.all_eq_true]
      by_cases hne : (splitSign t).2 = []
      · exact .inl hne
      · exact .inr fun h => hint ⟨hne, h⟩
    rw [if_pos hall]
    exact iff_of_false (fun h => by cases h) fun h => hint h.1

theorem parseOr_eq_ok {t : List Char} {e : NxsError} {v : ℤ} : parseOr t e = .ok v ↔ IsInt t ∧ InI64 (intOf t) ∧ v = intOf t := by
  rw [parseOr]
  cases h : parseI64 t with
  | none =>
    refine iff_of_false (fun h => by cases h) fun hint => ?_
    have := parseI64_eq_some.mpr ⟨hint.1, hint.2.1, Int64.toInt_ofInt_of_le hint.2.1.1 hint.2.1.2⟩
    rw [h] at this
    cases this
  | some n =>
    obtain ⟨hint, hin, hn⟩ := parseI64_eq_some.mp h
    rw [Option.map_some, ofOption_some, okOr_ok, Outcome.ok.injEq, hn, and_iff_right hint, and_iff_right hin, eq_comm]

theorem isDigit_utf8Size {c : Char} (h : c.isDigit = true) : c.utf8Size = 1 := by
  rw [Char.utf8Size_eq_one_iff]
  simp only [Char.isDigit, Bool.and_eq_true, decide_eq_true_eq] at h
  exact UInt32.le_trans h.2 (by decide)

theorem byteLen_digits : ∀ {l : List Char}, (∀ c ∈ l, c.isDigit = true) → byteLen l = l.length
  | [], _ => rfl
  | c :: l, h => by
    rw [byteLen_cons, isDigit_utf8Size (h c List.mem_cons_self), byteLen_digits fun x hx => h x (List.mem_cons_of_mem _ hx),
      List.length_cons, Nat.add_comm]

/-- A number is as many bytes as characters. -/
theorem IsInt.byteLen {t : List Char} (h : IsInt t) : byteLen t = t.length := by
  obtain ⟨-, h⟩ := h
  unfold splitSign at h
  split at h
  · rw [byteLen_cons, byteLen_digits h, List.length_cons, Nat.add_comm]
    rfl
  · rw [byteLen_cons, byteLen_digits h, List.length_cons, Nat.add_comm]
    rfl
  · exact byteLen_digits h

theorem digit_lt {c : Char} (h : c.isDigit = true) : c.toNat - 48 < 10 := by
  simp only [Char.isDigit, Bool.and_eq_true, decide_eq_true_eq] at h
  have hhi : c.toNat ≤ 57 := h.2
  omega

theorem digitsNat_concat (l : List Char) (c : Char) : digitsNat (l ++ [c]) = 10 * digitsNat l + (c.toNat - 48) := by
  rw [digitsNat, List.foldl_append]
  rfl

/-- `n` digits are a number below `10 ^ n`. -/
theorem digitsNat_lt {l : List Char} (h : ∀ c ∈ l, c.isDigit = true) : digitsNat l < 10 ^ l.length := by
  induction l using List.reverseRecOn with
  | nil => exact Nat.one_pos
  | append_singleton l c ih =>
    have hl := ih fun x hx => h x (List.mem_append_left _ hx)
    have hc := digit_lt (h c (List.mem_append_right _ (List.mem_singleton.mpr rfl)))
    rw [digitsNat_concat, List.length_append, List.length_singleton, Nat.pow_succ]
    omega

/-- A short number fits. -/
theorem IsInt.inI64 {t : List Char} (h : IsInt t) (hlen : t.length ≤ 18) : InI64 (intOf t) := by
  obtain ⟨-, hdigits⟩ := h
  have hlt := digitsNat_lt hdigits
  have hle : (splitSign t).2.length ≤ t.length := by
    unfold splitSign
    split
    · exact Nat.le_succ _
    · exact Nat.le_succ _
    · exact Nat.le_refl _
  have hpow : 10 ^ (splitSign t).2.length ≤ 10 ^ 18 := Nat.pow_le_pow_right (by decide) (hle.trans hlen)
  rw [intOf, InI64]
  split <;> omega

/-- A field is a number of as many characters as it has bytes. -/
theorem fieldAt_eq_ok {s : List Char} {a b : ℕ} {e : NxsError} {v : ℤ} (hab : b - a ≤ 18) : fieldAt s a b e = .ok v ↔
    ∃ pre t post, s = pre ++ (t ++ post) ∧ byteLen pre = a ∧ t.length = b - a ∧ IsInt t ∧ v = intOf t := by
  rw [fieldAt, bind_eq_ok]
  constructor
  · rintro ⟨t, hslice, hparse⟩
    obtain ⟨pre, post, hs, hpre, hlen⟩ := sliceStr_eq_ok.mp hslice
    obtain ⟨hint, -, hv⟩ := parseOr_eq_ok.mp hparse
    exact ⟨pre, t, post, hs, hpre, hint.byteLen ▸ hlen, hint, hv⟩
  · rintro ⟨pre, t, post, hs, hpre, hlen, hint, hv⟩
    exact ⟨t, sliceStr_eq_ok.mpr ⟨pre, post, hs, hpre, hint.byteLen.trans hlen⟩,
      parseOr_eq_ok.mpr ⟨hint, hint.inI64 (hlen ▸ hab), hv⟩⟩

theorem byteLen_eq_zero {l : List Char} (h : byteLen l = 0) : l = [] :=
  List.eq_nil_of_length_eq_zero (Nat.le_zero.mp (h ▸ length_le_byteLen l))

theorem byteLen_eq_one {l : List Char} (h : byteLen l = 1) : ∃ c, l = [c] ∧ c.utf8Size = 1 := by
  cases l with
  | nil => cases h
  | cons c l =>
    have hpos := c.utf8Size_pos
    rw [byteLen_cons] at h
    obtain rfl : l = [] := byteLen_eq_zero (by omega)
    exact ⟨c, rfl, by omega⟩

/-- The year. -/
theorem fieldAt_front {s : List Char} {e : NxsError} {v : ℤ} :
    fieldAt s 0 4 e = .ok v ↔ ∃ t rest, s = t ++ rest ∧ t.length = 4 ∧ IsInt t ∧ v = intOf t := by
  rw [fieldAt_eq_ok (by decide)]
  constructor
  · rintro ⟨pre, t, rest, rfl, hpre, h⟩
    rw [byteLen_eq_zero hpre]
    exact ⟨t, rest, rfl, h⟩
  · rintro ⟨t, rest, rfl, h⟩
    exact ⟨[], t, rest, rfl, rfl, h⟩

/-- A field of two characters, one byte behind what has been read. -/
theorem fieldAt_after {front rest : List Char} {k : ℕ} {e : NxsError} {v : ℤ} (hk : byteLen front = k) :
    fieldAt (front ++ rest) (k + 1) (k + 3) e = .ok v ↔
      ∃ c t rest', rest = c :: (t ++ rest') ∧ c.utf8Size = 1 ∧ t.length = 2 ∧ IsInt t ∧ v = intOf t := by
  have htwo : k + 3 - (k + 1) = 2 := by omega
  rw [fieldAt_eq_ok (by omega), htwo]
  constructor
  · rintro ⟨pre, t, rest', hs, hpre, h⟩
    rcases List.append_eq_append_iff.mp hs with ⟨mid, rfl, hrest⟩ | ⟨mid, rfl, -⟩
    · rw [byteLen_append] at hpre
      obtain ⟨c, rfl, hc⟩ := byteLen_eq_one (l := mid) (by omega)
      exact ⟨c, t, rest', hrest, hc, h⟩
    · rw [byteLen_append] at hk
      omega
  · rintro ⟨c, t, rest', rfl, hc, h⟩
    refine ⟨front ++ [c], t, rest', by simp, ?_, h⟩
    rw [byteLen_append, hk, byteLen_cons, hc]
    rfl

theorem checkedI64_eq_ok {n ns : ℤ} {e : NxsError} : checkedI64 n e = .ok ns ↔ InI64 n ∧ ns = n := by
  rw [checkedI64]
  split <;> rename_i h
  · rw [Outcome.ok.injEq, and_iff_right h, eq_comm]
  · exact iff_of_false (fun heq => by cases heq) fun hin => h hin.1

/-! ## Dates -/

/-- The parts of a text that is read as a date. -/
structure DateText where
  year : List Char
  month : List Char
  day : List Char
  /-- The character between month and day, which is not looked at. -/
  sep : Char

namespace DateText

def text (d : DateText) : List Char := d.year ++ '-' :: (d.month ++ d.sep :: d.day)

/-- The parts as they are read. -/
structure Loose (d : DateText) : Prop where
  year : d.year.length = 4 ∧ IsInt d.year
  month : d.month.length = 2 ∧ IsInt d.month
  day : d.day.length = 2 ∧ IsInt d.day
  sep : d.sep.utf8Size = 1

/-- The parts as they should be. -/
structure Strict (d : DateText) : Prop where
  year : Digits 4 d.year
  month : Digits 2 d.month
  day : Digits 2 d.day
  sep : d.sep = '-'
  date : IsDate (digitsNat d.year) (digitsNat d.month) (digitsNat d.day)

/-- The instant of its midnight, as it is computed. -/
def nanos (d : DateText) : ℤ := daysSinceEpoch (intOf d.year) (intOf d.month) (intOf d.day) * 86400000000000

theorem Strict.loose {d : DateText} (h : d.Strict) : d.Loose := by
  have hne : ∀ {n : ℕ} {t : List Char}, Digits (n + 1) t → t ≠ [] := fun ht hnil => by
    rw [hnil] at ht
    cases ht.1
  refine ⟨⟨h.year.1, (isInt_of_digits (hne h.year) h.year.2).1⟩, ⟨h.month.1, (isInt_of_digits (hne h.month) h.month.2).1⟩,
    ⟨h.day.1, (isInt_of_digits (hne h.day) h.day.2).1⟩, ?_⟩
  rw [h.sep]
  rfl

/-- A text has at most one reading as a date. -/
theorem text_inj {d d' : DateText} {rest rest' : List Char} (h : d.Loose) (h' : d'.Loose)
    (htext : d.text ++ rest = d'.text ++ rest') : d = d' ∧ rest = rest' := by
  obtain ⟨year, month, day, sep⟩ := d
  obtain ⟨year', month', day', sep'⟩ := d'
  simp only [text, List.append_assoc, List.cons_append] at htext
  have hy : year.length = year'.length := h.year.1.trans h'.year.1.symm
  have hm : month.length = month'.length := h.month.1.trans h'.month.1.symm
  have hd : day.length = day'.length := h.day.1.trans h'.day.1.symm
  obtain ⟨rfl, hmonth⟩ := List.append_inj htext hy
  obtain ⟨rfl, hsep⟩ := List.append_inj (List.cons.inj hmonth).2 hm
  obtain ⟨rfl, hday⟩ := List.cons.inj hsep
  obtain ⟨rfl, rfl⟩ := List.append_inj hday hd
  exact ⟨rfl, rfl⟩

theorem Loose.byteLen {d : DateText} (h : d.Loose) : byteLen d.text = 10 := by
  rw [text, byteLen_append, byteLen_cons, byteLen_append, byteLen_cons, h.year.2.byteLen, h.month.2.byteLen, h.day.2.byteLen,
    h.year.1, h.month.1, h.day.1, h.sep]
  rfl

theorem Loose.length {d : DateText} (h : d.Loose) : d.text.length = 10 := by
  rw [text, List.length_append, List.length_cons, List.length_append, List.length_cons, h.year.1, h.month.1, h.day.1]

theorem Loose.fifth {d : DateText} (h : d.Loose) : d.text[4]? = some '-' := by
  rw [text, List.getElem?_append_right (Nat.le_of_eq h.year.1), h.year.1]
  rfl

theorem Loose.shaped {d : DateText} (h : d.Loose) : dateShaped d.text = true := by
  rw [dateShaped, h.byteLen, h.fifth]
  rfl

end DateText

/-- What is read as a date. -/
theorem parseDate_eq_ok {s : List Char} {ns : ℤ} (hs : dateShaped s = true) :
    parseDate s = .ok ns ↔ ∃ d : DateText, s = d.text ∧ d.Loose ∧ InI64 d.nanos ∧ ns = d.nanos := by
  rw [dateShaped, Bool.and_eq_true, beq_iff_eq, beq_iff_eq] at hs
  obtain ⟨hlen, hdash⟩ := hs
  constructor
  · intro h
    obtain ⟨year, hyear, h⟩ := bind_eq_ok.mp h
    obtain ⟨month, hmonth, h⟩ := bind_eq_ok.mp h
    obtain ⟨day, hday, h⟩ := bind_eq_ok.mp h
    obtain ⟨y, rest, rfl, hyl, hyi, rfl⟩ := fieldAt_front.mp hyear
    obtain ⟨c, m, rest, rfl, hc, hml, hmi, rfl⟩ := (fieldAt_after (hyi.byteLen.trans hyl)).mp hmonth
    rw [show y ++ c :: (m ++ rest) = (y ++ c :: m) ++ rest by simp] at hday
    have hfront : byteLen (y ++ c :: m) = 7 := by
      rw [byteLen_append, byteLen_cons, hyi.byteLen, hmi.byteLen, hyl, hml, hc]
    obtain ⟨sep, d, rest, rfl, hsep, hdl, hdi, rfl⟩ := (fieldAt_after hfront).mp hday
    obtain rfl : c = '-' := by
      rw [List.getElem?_append_right (Nat.le_of_eq hyl), hyl] at hdash
      exact Option.some.inj hdash
    obtain rfl : rest = [] := by
      refine byteLen_eq_zero ?_
      rw [byteLen_append, byteLen_cons, byteLen_append, byteLen_cons, byteLen_append, hyi.byteLen, hmi.byteLen, hdi.byteLen, hyl,
        hml, hdl, hc, hsep] at hlen
      omega
    refine ⟨⟨y, m, d, sep⟩, by rw [DateText.text, List.append_nil], ⟨⟨hyl, hyi⟩, ⟨hml, hmi⟩, ⟨hdl, hdi⟩, hsep⟩, ?_⟩
    exact checkedI64_eq_ok.mp h
  · rintro ⟨⟨y, m, d, sep⟩, rfl, ⟨⟨hyl, hyi⟩, ⟨hml, hmi⟩, ⟨hdl, hdi⟩, hsep⟩, hin, hns⟩
    dsimp only at hyl hyi hml hmi hdl hdi hsep
    have hdash : Char.utf8Size '-' = 1 := rfl
    have hfront : byteLen (y ++ '-' :: m) = 7 := by
      rw [byteLen_append, byteLen_cons, hyi.byteLen, hmi.byteLen, hyl, hml, hdash]
    refine bind_eq_ok.mpr ⟨intOf y, fieldAt_front.mpr ⟨y, _, rfl, hyl, hyi, rfl⟩, ?_⟩
    refine bind_eq_ok.mpr ⟨intOf m, (fieldAt_after (hyi.byteLen.trans hyl)).mpr ⟨'-', m, _, rfl, hdash, hml, hmi, rfl⟩, ?_⟩
    refine bind_eq_ok.mpr ⟨intOf d, ?_, checkedI64_eq_ok.mpr ⟨hin, hns⟩⟩
    rw [DateText.text, show y ++ '-' :: (m ++ sep :: d) = (y ++ '-' :: m) ++ sep :: d by simp]
    exact (fieldAt_after hfront).mpr ⟨sep, d, [], by rw [List.append_nil], hsep, hdl, hdi, rfl⟩

/-! ## Times of day -/

/-- The fraction with its point, or nothing. -/
def fractionText : Option (List Char) → List Char
  | none => []
  | some ds => '.' :: ds

/-- One to nine digits. -/
def IsFraction : Option (List Char) → Prop
  | none => True
  | some ds => ds ≠ [] ∧ ds.length ≤ 9 ∧ ∀ c ∈ ds, c.isDigit = true

/-- The fraction of a second in nanoseconds. -/
def fractionNanos : Option (List Char) → ℕ
  | none => 0
  | some ds => digitsNat ds * 10 ^ (9 - ds.length)

theorem digitsNat_zeros (l : List Char) : ∀ k, digitsNat (l ++ List.replicate k '0') = digitsNat l * 10 ^ k
  | 0 => by rw [List.replicate_zero, List.append_nil, Nat.pow_zero, Nat.mul_one]
  | k + 1 => by
    rw [List.replicate_succ', ← List.append_assoc, digitsNat_concat, digitsNat_zeros l k, Nat.pow_succ]
    have hzero : '0'.toNat - 48 = 0 := rfl
    rw [hzero, Nat.add_zero, Nat.mul_comm, Nat.mul_assoc]

theorem fractionText_inj {f f' : Option (List Char)} (h : fractionText f = fractionText f') : f = f' := by
  cases f <;> cases f' <;> cases h <;> rfl

theorem parseFraction_eq_ok {front rest : List Char} {v : ℤ} (hfront : byteLen front = 19) :
    parseFraction (front ++ rest) = .ok v ↔ ∃ f, rest = fractionText f ∧ IsFraction f ∧ v = fractionNanos f := by
  have hsuffix : suffixFrom (front ++ rest) 19 = some rest := suffixFrom_eq_some.mpr ⟨front, rfl, hfront⟩
  rw [parseFraction, hsuffix]
  split
  · rename_i ds hds
    cases hds
    rw [bind_eq_ok]
    constructor
    · rintro ⟨_, hensure, hparse⟩
      have hds := ensure_eq_ok.mp hensure
      rw [not_or, not_or, Bool.not_eq_false, List.all_eq_true] at hds
      obtain ⟨hne, hlen, hdigits⟩ := hds
      rw [byteLen_digits hdigits] at hlen
      obtain ⟨-, -, rfl⟩ := parseOr_eq_ok.mp hparse
      refine ⟨some ds, rfl, ⟨hne, by omega, hdigits⟩, ?_⟩
      rw [(isInt_of_digits _ _).2, digitsNat_zeros]
      · rfl
      · exact List.append_ne_nil_of_left_ne_nil hne _
      · exact fun c hc => (List.mem_append.mp hc).elim (hdigits c) fun hz => (List.eq_of_mem_replicate hz) ▸ rfl
    · rintro ⟨f, hf, hfrac, rfl⟩
      cases f with
      | none => cases hf
      | some ds' =>
        cases hf
        obtain ⟨hne, hlen, hdigits⟩ := hfrac
        have hall : ∀ c ∈ ds ++ List.replicate (9 - ds.length) '0', c.isDigit = true := fun c hc =>
          (List.mem_append.mp hc).elim (hdigits c) fun hz => (List.eq_of_mem_replicate hz) ▸ rfl
        obtain ⟨hint, hval⟩ := isInt_of_digits (List.append_ne_nil_of_left_ne_nil hne _) hall
        refine ⟨(), ensure_eq_ok.mpr ?_, parseOr_eq_ok.mpr ⟨hint, hint.inI64 ?_, ?_⟩⟩
        · rw [not_or, not_or, Bool.not_eq_false, List.all_eq_true, byteLen_digits hdigits]
          exact ⟨hne, by omega, hdigits⟩
        · rw [List.length_append, List.length_replicate]
          omega
        · rw [hval, digitsNat_zeros]
          rfl
  · rename_i hno
    rw [byteLen_append, hfront]
    by_cases hnil : byteLen rest = 0
    · rw [if_pos (by omega), Outcome.ok.injEq]
      constructor
      · rintro rfl
        exact ⟨none, byteLen_eq_zero hnil, trivial, rfl⟩
      · rintro ⟨f, rfl, -, rfl⟩
        cases f with
        | none => rfl
        | some ds => exact absurd rfl (hno ds)
    · rw [if_neg (by omega)]
      refine iff_of_false (fun h => by cases h) ?_
      rintro ⟨f, rfl, -⟩
      cases f with
      | none => exact hnil rfl
      | some ds => exact hno ds rfl

/-- The parts of a text that is read as a date with a time of day. -/
structure TimeText where
  date : DateText
  hour : List Char
  minute : List Char
  second : List Char
  frac : Option (List Char)
  /-- The characters between hour, minute and second, which are not looked at. -/
  sep : Char × Char

namespace TimeText

def text (t : TimeText) : List Char :=
  t.date.text ++ 'T' :: (t.hour ++ t.sep.1 :: (t.minute ++ t.sep.2 :: (t.second ++ fractionText t.frac)))

/-- The parts as they are read. -/
structure Loose (t : TimeText) : Prop where
  date : t.date.Loose
  hour : (t.hour.length = 2 ∧ IsInt t.hour) ∧ intOf t.hour ≤ 23
  minute : (t.minute.length = 2 ∧ IsInt t.minute) ∧ intOf t.minute ≤ 59
  second : (t.second.length = 2 ∧ IsInt t.second) ∧ intOf t.second ≤ 59
  frac : IsFraction t.frac
  sep : t.sep.1.utf8Size = 1 ∧ t.sep.2.utf8Size = 1

/-- The parts as they should be. -/
structure Strict (t : TimeText) : Prop where
  date : t.date.Strict
  hour : Digits 2 t.hour ∧ digitsNat t.hour < 24
  minute : Digits 2 t.minute ∧ digitsNat t.minute < 60
  second : Digits 2 t.second ∧ digitsNat t.second < 60
  frac : IsFraction t.frac
  sep : t.sep = (':', ':')

/-- The instant as it is computed. -/
def nanos (t : TimeText) : ℤ :=
  t.date.nanos + intOf t.hour * 3600000000000 + intOf t.minute * 60000000000 + intOf t.second * 1000000000 + fractionNanos t.frac

/-- No step of the sum overflows. -/
structure Fits (t : TimeText) : Prop where
  date : InI64 t.date.nanos
  hour : InI64 (t.date.nanos + intOf t.hour * 3600000000000)
  minute : InI64 (t.date.nanos + intOf t.hour * 3600000000000 + intOf t.minute * 60000000000)
  second : InI64 (t.date.nanos + intOf t.hour * 3600000000000 + intOf t.minute * 60000000000 + intOf t.second * 1000000000)
  frac : InI64 t.nanos

theorem Strict.loose {t : TimeText} (h : t.Strict) : t.Loose := by
  have hfield : ∀ {n : ℕ} {l : List Char}, Digits 2 l ∧ digitsNat l < n → (l.length = 2 ∧ IsInt l) ∧ intOf l ≤ n - 1 := fun hl => by
    obtain ⟨hint, hval⟩ := isInt_of_digits (List.ne_nil_of_length_eq_add_one hl.1.1) hl.1.2
    exact ⟨⟨hl.1.1, hint⟩, by omega⟩
  refine ⟨h.date.loose, hfield h.hour, hfield h.minute, hfield h.second, h.frac, ?_⟩
  rw [h.sep]
  exact ⟨rfl, rfl⟩

/-- Where the date and the sum fit, so does every step: the parts are not negative. -/
theorem Strict.fits {t : TimeText} (h : t.Strict) (hdate : InI64 t.date.nanos) (hsum : InI64 t.nanos) : t.Fits := by
  have hval : ∀ {l : List Char}, Digits 2 l → 0 ≤ intOf l := fun hl => by
    rw [(isInt_of_digits (List.ne_nil_of_length_eq_add_one hl.1) hl.2).2]
    exact Int.natCast_nonneg _
  have hh := hval h.hour.1
  have hm := hval h.minute.1
  have hs := hval h.second.1
  have hsum' := hsum
  rw [InI64] at hdate
  rw [InI64, nanos] at hsum'
  exact ⟨hdate, ⟨by omega, by omega⟩, ⟨by omega, by omega⟩, ⟨by omega, by omega⟩, hsum⟩

theorem text_inj {t t' : TimeText} (h : t.Loose) (h' : t'.Loose) (htext : t.text = t'.text) : t = t' := by
  obtain ⟨date, hour, minute, second, frac, sep, sep'⟩ := t
  obtain ⟨date', hour', minute', second', frac', sep₁, sep₁'⟩ := t'
  have hh : hour.length = hour'.length := h.hour.1.1.trans h'.hour.1.1.symm
  have hm : minute.length = minute'.length := h.minute.1.1.trans h'.minute.1.1.symm
  have hs : second.length = second'.length := h.second.1.1.trans h'.second.1.1.symm
  obtain ⟨rfl, hT⟩ := DateText.text_inj h.date h'.date htext
  obtain ⟨rfl, hsep⟩ := List.append_inj (List.cons.inj hT).2 hh
  obtain ⟨rfl, hminute⟩ := List.cons.inj hsep
  obtain ⟨rfl, hsep'⟩ := List.append_inj hminute hm
  obtain ⟨rfl, hsecond⟩ := List.cons.inj hsep'
  obtain ⟨rfl, hfrac⟩ := List.append_inj hsecond hs
  obtain rfl : frac = frac' := fractionText_inj hfrac
  rfl

theorem Loose.byteLen {t : TimeText} (h : t.Loose) : 19 ≤ byteLen t.text := by
  rw [text, byteLen_append, byteLen_cons, byteLen_append, byteLen_cons, byteLen_append, byteLen_cons, byteLen_append, h.date.byteLen,
    h.hour.1.2.byteLen, h.minute.1.2.byteLen, h.second.1.2.byteLen, h.hour.1.1, h.minute.1.1, h.second.1.1, h.sep.1, h.sep.2]
  have hT : Char.utf8Size 'T' = 1 := rfl
  omega

end TimeText

theorem charAtByte_eq_some {s : List Char} {i : ℕ} {c : Char} :
    charAtByte s i = some c ↔ ∃ pre rest, s = pre ++ c :: rest ∧ byteLen pre = i := by
  rw [charAtByte, Option.bind_eq_some_iff]
  constructor
  · rintro ⟨t, hsuffix, hhead⟩
    obtain ⟨pre, rfl, hlen⟩ := suffixFrom_eq_some.mp hsuffix
    obtain ⟨rest, rfl⟩ := List.head?_eq_some_iff.mp hhead
    exact ⟨pre, rest, rfl, hlen⟩
  · rintro ⟨pre, rest, rfl, hlen⟩
    exact ⟨c :: rest, suffixFrom_eq_some.mpr ⟨pre, rfl, hlen⟩, rfl⟩

/-- Behind its first character a number has no dash. -/
theorem IsInt.not_dash {pre rest : List Char} (h : IsInt (pre ++ '-' :: rest)) : pre = [] := by
  cases pre with
  | nil => rfl
  | cons c pre =>
    have hmem : '-' ∈ pre ++ '-' :: rest := List.mem_append_right _ List.mem_cons_self
    obtain ⟨-, h⟩ := h
    unfold splitSign at h
    split at h <;> rename_i heq
    · cases heq
      exact absurd (h _ hmem) (by decide)
    · cases heq
      exact absurd (h _ hmem) (by decide)
    · exact absurd (h _ (List.mem_cons_of_mem _ hmem)) (by decide)

theorem DateText.Loose.timeShaped {d : DateText} (h : d.Loose) {rest : List Char} (hlen : 19 ≤ Nyxis.byteLen (d.text ++ 'T' :: rest)) :
    dateShaped (d.text ++ 'T' :: rest) = false ∧ dateTimeShaped (d.text ++ 'T' :: rest) = true := by
  have hdash : charAtByte (d.text ++ 'T' :: rest) 4 = some '-' :=
    charAtByte_eq_some.mpr ⟨d.year, d.month ++ d.sep :: (d.day ++ 'T' :: rest), by simp [DateText.text], h.year.2.byteLen.trans h.year.1⟩
  have hT : charAtByte (d.text ++ 'T' :: rest) 10 = some 'T' := charAtByte_eq_some.mpr ⟨d.text, rest, rfl, h.byteLen⟩
  constructor
  · rw [dateShaped, Bool.and_eq_false_iff, beq_eq_false_iff_ne]
    exact .inl fun heq => by omega
  · rw [dateTimeShaped, hdash, hT, decide_eq_true hlen]
    rfl

/-- What is read as a date with a time of day. -/
theorem parseDateTime_eq_ok {s : List Char} {ns : ℤ} (hs : dateTimeShaped s = true) :
    parseDateTime s = .ok ns ↔ ∃ t : TimeText, s = t.text ∧ t.Loose ∧ t.Fits ∧ ns = t.nanos := by
  rw [dateTimeShaped, Bool.and_eq_true, Bool.and_eq_true, decide_eq_true_eq, beq_iff_eq, beq_iff_eq] at hs
  obtain ⟨⟨-, hdash⟩, hT⟩ := hs
  constructor
  · intro h
    obtain ⟨date, hslice, h⟩ := bind_eq_ok.mp h
    obtain ⟨dateNs, hdate, h⟩ := bind_eq_ok.mp h
    obtain ⟨hour, hhour, h⟩ := bind_eq_ok.mp h
    obtain ⟨minute, hminute, h⟩ := bind_eq_ok.mp h
    obtain ⟨second, hsecond, h⟩ := bind_eq_ok.mp h
    obtain ⟨_, hrange, h⟩ := bind_eq_ok.mp h
    obtain ⟨fracNs, hfrac, h⟩ := bind_eq_ok.mp h
    obtain ⟨ns₁, hns₁, h⟩ := bind_eq_ok.mp h
    obtain ⟨ns₂, hns₂, h⟩ := bind_eq_ok.mp h
    obtain ⟨ns₃, hns₃, h⟩ := bind_eq_ok.mp h
    obtain ⟨pre, rest, rfl, hpre, hlen⟩ := sliceStr_eq_ok.mp hslice
    obtain rfl : pre = [] := byteLen_eq_zero hpre
    rw [List.nil_append] at *
    -- the first ten bytes are a date, since a number has no dash
    obtain ⟨d, rfl, hd, hdin, rfl⟩ : ∃ d : DateText, date = d.text ∧ d.Loose ∧ InI64 d.nanos ∧ dateNs = d.nanos := by
      split at hdate <;> rename_i hshape
      · exact (parseDate_eq_ok hshape).mp hdate
      · obtain ⟨hint, -, -⟩ := parseOr_eq_ok.mp hdate
        obtain ⟨y, post, hy, hyl⟩ := charAtByte_eq_some.mp hdash
        rcases List.append_eq_append_iff.mp hy with ⟨mid, hmid, -⟩ | ⟨mid, hmid, hpost⟩
        · rw [hmid, byteLen_append] at hyl
          omega
        · cases mid with
          | nil =>
            rw [hmid, List.append_nil, hyl] at hlen
            cases hlen
          | cons c mid =>
            cases hpost
            rw [hmid] at hint
            rw [hint.not_dash] at hyl
            cases hyl
    -- the field behind it starts with the `T`
    obtain ⟨c, hh, rest, rfl, hc, hhl, hhi, rfl⟩ := (fieldAt_after hd.byteLen).mp hhour
    obtain rfl : c = 'T' := by
      obtain ⟨pre, post, hT, hTl⟩ := charAtByte_eq_some.mp hT
      exact (List.cons.inj (front_unique hT (hd.byteLen.trans hTl.symm)).2).1
    rw [show d.text ++ 'T' :: (hh ++ rest) = (d.text ++ 'T' :: hh) ++ rest by simp] at *
    have hfront₁ : byteLen (d.text ++ 'T' :: hh) = 13 := by
      rw [byteLen_append, byteLen_cons, hd.byteLen, hhi.byteLen, hhl, hc]
    obtain ⟨sep, mm, rest, rfl, hsep, hml, hmi, rfl⟩ := (fieldAt_after hfront₁).mp hminute
    rw [show (d.text ++ 'T' :: hh) ++ sep :: (mm ++ rest) = (d.text ++ 'T' :: (hh ++ sep :: mm)) ++ rest by simp] at *
    have hfront₂ : byteLen (d.text ++ 'T' :: (hh ++ sep :: mm)) = 16 := by
      rw [byteLen_append, byteLen_cons, byteLen_append, byteLen_cons, hd.byteLen, hhi.byteLen, hmi.byteLen, hhl, hml, hc, hsep]
    obtain ⟨sep', ss, rest, rfl, hsep', hsl, hsi, rfl⟩ := (fieldAt_after hfront₂).mp hsecond
    rw [show (d.text ++ 'T' :: (hh ++ sep :: mm)) ++ sep' :: (ss ++ rest) = (d.text ++ 'T' :: (hh ++ sep :: (mm ++ sep' :: ss))) ++ rest
      by simp] at *
    have hfront₃ : byteLen (d.text ++ 'T' :: (hh ++ sep :: (mm ++ sep' :: ss))) = 19 := by
      rw [byteLen_append, byteLen_cons, byteLen_append, byteLen_cons, byteLen_append, byteLen_cons, hd.byteLen, hhi.byteLen, hmi.byteLen,
        hsi.byteLen, hhl, hml, hsl, hc, hsep, hsep']
    obtain ⟨f, rfl, hf, rfl⟩ := (parseFraction_eq_ok hfront₃).mp hfrac
    obtain ⟨hle, hle', hle''⟩ : intOf hh ≤ 23 ∧ intOf mm ≤ 59 ∧ intOf ss ≤ 59 := by
      have hr := ensure_eq_ok.mp hrange
      omega
    obtain ⟨hin₁, rfl⟩ := checkedI64_eq_ok.mp hns₁
    obtain ⟨hin₂, rfl⟩ := checkedI64_eq_ok.mp hns₂
    obtain ⟨hin₃, rfl⟩ := checkedI64_eq_ok.mp hns₃
    obtain ⟨hin₄, rfl⟩ := checkedI64_eq_ok.mp h
    refine ⟨⟨d, hh, mm, ss, f, (sep, sep')⟩, by simp [TimeText.text], ?_, ⟨hdin, hin₁, hin₂, hin₃, hin₄⟩, rfl⟩
    exact ⟨hd, ⟨⟨hhl, hhi⟩, hle⟩, ⟨⟨hml, hmi⟩, hle'⟩, ⟨⟨hsl, hsi⟩, hle''⟩, hf, hsep, hsep'⟩
  · rintro ⟨⟨d, hh, mm, ss, f, sep, sep'⟩, rfl, ⟨hd, ⟨⟨hhl, hhi⟩, hle⟩, ⟨⟨hml, hmi⟩, hle'⟩, ⟨⟨hsl, hsi⟩, hle''⟩, hf, hsep, hsep'⟩, hfits, rfl⟩
    dsimp only at hd hhl hhi hle hml hmi hle' hsl hsi hle'' hf hsep hsep'
    have hT : Char.utf8Size 'T' = 1 := rfl
    have hfront₁ : byteLen (d.text ++ 'T' :: hh) = 13 := by
      rw [byteLen_append, byteLen_cons, hd.byteLen, hhi.byteLen, hhl, hT]
    have hfront₂ : byteLen (d.text ++ 'T' :: (hh ++ sep :: mm)) = 16 := by
      rw [byteLen_append, byteLen_cons, byteLen_append, byteLen_cons, hd.byteLen, hhi.byteLen, hmi.byteLen, hhl, hml, hT, hsep]
    have hfront₃ : byteLen (d.text ++ 'T' :: (hh ++ sep :: (mm ++ sep' :: ss))) = 19 := by
      rw [byteLen_append, byteLen_cons, byteLen_append, byteLen_cons, byteLen_append, byteLen_cons, hd.byteLen, hhi.byteLen, hmi.byteLen,
        hsi.byteLen, hhl, hml, hsl, hT, hsep, hsep']
    refine bind_eq_ok.mpr ⟨d.text, sliceStr_eq_ok.mpr ⟨[], _, rfl, rfl, hd.byteLen⟩, ?_⟩
    refine bind_eq_ok.mpr ⟨d.nanos, ?_, ?_⟩
    · rw [if_pos hd.shaped]
      exact (parseDate_eq_ok hd.shaped).mpr ⟨d, rfl, hd, hfits.date, rfl⟩
    refine bind_eq_ok.mpr ⟨intOf hh, (fieldAt_after hd.byteLen).mpr ⟨'T', hh, _, rfl, hT, hhl, hhi, rfl⟩, ?_⟩
    refine bind_eq_ok.mpr ⟨intOf mm, ?_, ?_⟩
    · rw [TimeText.text, show d.text ++ 'T' :: (hh ++ sep :: (mm ++ sep' :: (ss ++ fractionText f))) =
        (d.text ++ 'T' :: hh) ++ sep :: (mm ++ sep' :: (ss ++ fractionText f)) by simp]
      exact (fieldAt_after hfront₁).mpr ⟨sep, mm, _, rfl, hsep, hml, hmi, rfl⟩
    refine bind_eq_ok.mpr ⟨intOf ss, ?_, ?_⟩
    · rw [TimeText.text, show d.text ++ 'T' :: (hh ++ sep :: (mm ++ sep' :: (ss ++ fractionText f))) =
        (d.text ++ 'T' :: (hh ++ sep :: mm)) ++ sep' :: (ss ++ fractionText f) by simp]
      exact (fieldAt_after hfront₂).mpr ⟨sep', ss, _, rfl, hsep', hsl, hsi, rfl⟩
    refine bind_eq_ok.mpr ⟨(), ensure_eq_ok.mpr (by omega), ?_⟩
    refine bind_eq_ok.mpr ⟨fractionNanos f, ?_, ?_⟩
    · rw [TimeText.text, show d.text ++ 'T' :: (hh ++ sep :: (mm ++ sep' :: (ss ++ fractionText f))) =
        (d.text ++ 'T' :: (hh ++ sep :: (mm ++ sep' :: ss))) ++ fractionText f by simp]
      exact (parseFraction_eq_ok hfront₃).mpr ⟨f, rfl, hf, rfl⟩
    refine bind_eq_ok.mpr ⟨_, checkedI64_eq_ok.mpr ⟨hfits.hour, rfl⟩, ?_⟩
    refine bind_eq_ok.mpr ⟨_, checkedI64_eq_ok.mpr ⟨hfits.minute, rfl⟩, ?_⟩
    refine bind_eq_ok.mpr ⟨_, checkedI64_eq_ok.mpr ⟨hfits.second, rfl⟩, ?_⟩
    exact checkedI64_eq_ok.mpr ⟨hfits.frac, rfl⟩

/-- What is read, and as what. -/
theorem parseTemporal_eq_ok {s : List Char} {ns : ℤ} : parseTemporal s = .ok ns ↔
    (∃ d : DateText, s = d.text ∧ d.Loose ∧ InI64 d.nanos ∧ ns = d.nanos) ∨
    (∃ t : TimeText, s = t.text ∧ t.Loose ∧ t.Fits ∧ ns = t.nanos) ∨
    (IsInt s ∧ InI64 (intOf s) ∧ ns = intOf s) := by
  -- a text with a dash behind its first character is not a number
  have hdash : ∀ {pre rest : List Char}, pre ≠ [] → ¬ IsInt (pre ++ '-' :: rest) := fun hne h => hne h.not_dash
  have htime : ∀ {t : TimeText}, t.Loose → dateShaped t.text = false ∧ dateTimeShaped t.text = true :=
    fun h => h.date.timeShaped h.byteLen
  rw [parseTemporal]
  by_cases hdate : dateShaped s = true
  · rw [if_pos hdate, parseDate_eq_ok hdate]
    refine ⟨.inl, ?_⟩
    rintro (h | ⟨t, rfl, ht, -⟩ | ⟨hint, -⟩)
    · exact h
    · rw [(htime ht).1] at hdate
      cases hdate
    · rw [dateShaped, Bool.and_eq_true, beq_iff_eq, beq_iff_eq] at hdate
      obtain ⟨hlt, hget⟩ := List.getElem?_eq_some_iff.mp hdate.2
      have hs : s = s.take 4 ++ '-' :: s.drop 5 := by rw [← hget, List.getElem_cons_drop, List.take_append_drop]
      rw [hs] at hint
      refine absurd hint (hdash fun hnil => ?_)
      rw [List.take_eq_nil_iff] at hnil
      rcases hnil with hnil | rfl
      · cases hnil
      · cases hlt
  · rw [if_neg hdate]
    by_cases hshape : dateTimeShaped s = true
    · rw [if_pos hshape, parseDateTime_eq_ok hshape]
      refine ⟨fun h => .inr (.inl h), ?_⟩
      rintro (⟨d, rfl, hd, -⟩ | h | ⟨hint, -⟩)
      · exact absurd hd.shaped hdate
      · exact h
      · rw [dateTimeShaped, Bool.and_eq_true, Bool.and_eq_true, beq_iff_eq, beq_iff_eq] at hshape
        obtain ⟨pre, rest, rfl, hpre⟩ := charAtByte_eq_some.mp hshape.1.2
        refine absurd hint (hdash fun hnil => ?_)
        rw [hnil] at hpre
        cases hpre
    · rw [if_neg hshape, parseNanos, parseOr_eq_ok]
      refine ⟨fun h => .inr (.inr h), ?_⟩
      rintro (⟨d, rfl, hd, -⟩ | ⟨t, rfl, ht, -⟩ | h)
      · exact absurd hd.shaped hdate
      · exact absurd (htime ht).2 hshape
      · exact h

/-! ## The instants that texts denote -/

/-- The nanoseconds from the epoch to the midnight of a date. -/
def DateText.instant (d : DateText) : ℤ :=
  ((dayNumber (digitsNat d.year) (digitsNat d.month) (digitsNat d.day) : ℤ) - dayNumber 1970 1 1) * 86400000000000

/-- The nanoseconds from the epoch to a time of a day. -/
def TimeText.instant (t : TimeText) : ℤ :=
  t.date.instant + digitsNat t.hour * 3600000000000 + digitsNat t.minute * 60000000000 + digitsNat t.second * 1000000000 +
    fractionNanos t.frac

/-- The grammar of times, with the instants they denote. -/
inductive DenotesInstant : List Char → ℤ → Prop
  | nanos (s : List Char) (hne : s ≠ []) (hdigits : ∀ c ∈ s, c.isDigit = true) (hin : InI64 (digitsNat s)) : DenotesInstant s (digitsNat s)
  | date (d : DateText) (h : d.Strict) (hin : InI64 d.instant) : DenotesInstant d.text d.instant
  | time (t : TimeText) (h : t.Strict) (hin : InI64 t.instant) : DenotesInstant t.text t.instant

theorem Digits.intOf {n : ℕ} {l : List Char} (h : Digits (n + 1) l) : intOf l = digitsNat l :=
  (isInt_of_digits (List.ne_nil_of_length_eq_add_one h.1) h.2).2

theorem DateText.Strict.nanos_eq {d : DateText} (h : d.Strict) : d.nanos = d.instant := by
  rw [nanos, instant, h.year.intOf, h.month.intOf, h.day.intOf, daysSinceEpoch_eq h.date]

theorem TimeText.Strict.nanos_eq {t : TimeText} (h : t.Strict) : t.nanos = t.instant := by
  rw [nanos, instant, h.date.nanos_eq, h.hour.1.intOf, h.minute.1.intOf, h.second.1.intOf]

theorem DateText.not_digits {d : DateText} : ¬ ∀ c ∈ d.text, c.isDigit = true := fun h =>
  absurd (h '-' (List.mem_append_right _ List.mem_cons_self)) (by decide)

theorem TimeText.not_digits {t : TimeText} : ¬ ∀ c ∈ t.text, c.isDigit = true := fun h =>
  absurd (h 'T' (List.mem_append_right _ List.mem_cons_self)) (by decide)

theorem text_ne {d : DateText} {t : TimeText} (hd : d.Loose) (ht : t.Loose) : d.text ≠ t.text := fun h => by
  have hlen := ht.byteLen
  rw [← h, hd.byteLen] at hlen
  omega

/-- What a text with the parts of a date denotes. -/
theorem denotes_date {d : DateText} {ns : ℤ} (hd : d.Loose) : DenotesInstant d.text ns ↔ d.Strict ∧ InI64 d.instant ∧ ns = d.instant := by
  constructor
  · intro h
    generalize hs : d.text = s at h
    cases h with
    | nanos _ hne hdigits hin => exact absurd (hs ▸ hdigits) d.not_digits
    | date d' h hin =>
      obtain ⟨rfl, -⟩ := DateText.text_inj hd h.loose (congrArg (· ++ []) hs)
      exact ⟨h, hin, rfl⟩
    | time t h hin => exact absurd hs (text_ne hd h.loose)
  · rintro ⟨h, hin, hns⟩
    rw [hns]
    exact .date d h hin

/-- What a text with the parts of a time denotes. -/
theorem denotes_time {t : TimeText} {ns : ℤ} (ht : t.Loose) : DenotesInstant t.text ns ↔ t.Strict ∧ InI64 t.instant ∧ ns = t.instant := by
  constructor
  · intro h
    generalize hs : t.text = s at h
    cases h with
    | nanos _ hne hdigits hin => exact absurd (hs ▸ hdigits) t.not_digits
    | date d h hin => exact absurd hs.symm (text_ne h.loose ht)
    | time t' h hin =>
      obtain rfl := TimeText.text_inj ht h.loose hs
      exact ⟨h, hin, rfl⟩
  · rintro ⟨h, hin, hns⟩
    rw [hns]
    exact .time t h hin

/-- A text with a digit in front is read as what it denotes, or not at all where it denotes nothing, exactly if it does not have the
parts of a date or a time without being one, and is not on the first day of the range, whose midnight is out of range. -/
theorem temporal_exact_iff (c : Char) (rest : List Char) (hc : c.isDigit = true) :
    (∀ ns, parseTemporal (c :: rest) = .ok ns ↔ DenotesInstant (c :: rest) ns) ↔
      (∀ d : DateText, c :: rest = d.text → d.Loose → InI64 d.nanos → d.Strict) ∧
      (∀ t : TimeText, c :: rest = t.text → t.Loose → (t.Fits → t.Strict) ∧ (t.Strict → InI64 t.instant → InI64 t.date.instant)) := by
  have hsplit : splitSign (c :: rest) = (false, c :: rest) := by
    unfold splitSign
    split <;> rename_i heq
    · cases heq
      cases hc
    · cases heq
      cases hc
    · rfl
  constructor
  · intro h
    refine ⟨fun d hs hd hin => ?_, fun t hs ht => ⟨fun hfits => ?_, fun hstrict hin => ?_⟩⟩
    · have hden := (h d.nanos).mp (parseTemporal_eq_ok.mpr (.inl ⟨d, hs, hd, hin, rfl⟩))
      rw [hs, denotes_date hd] at hden
      exact hden.1
    · have hden := (h t.nanos).mp (parseTemporal_eq_ok.mpr (.inr (.inl ⟨t, hs, ht, hfits, rfl⟩)))
      rw [hs, denotes_time ht] at hden
      exact hden.1
    · have hparse := (h t.instant).mpr (hs ▸ .time t hstrict hin)
      rw [hs] at hparse
      rcases parseTemporal_eq_ok.mp hparse with ⟨d, hd, hloose, -⟩ | ⟨t', ht', hloose, hfits, -⟩ | ⟨hint, -⟩
      · exact absurd hd.symm (text_ne hloose ht)
      · obtain rfl := TimeText.text_inj ht hloose ht'
        exact hstrict.date.nanos_eq ▸ hfits.date
      · rw [← hs, IsInt, hsplit, hs] at hint
        exact absurd hint.2 t.not_digits
  · rintro ⟨hdate, htime⟩ ns
    rw [parseTemporal_eq_ok]
    constructor
    · rintro (⟨d, hs, hd, hin, hns⟩ | ⟨t, hs, ht, hfits, hns⟩ | ⟨hint, hin, hns⟩)
      · have hstrict := hdate d hs hd hin
        rw [hs, denotes_date hd, hns, ← hstrict.nanos_eq]
        exact ⟨hstrict, hin, rfl⟩
      · have hstrict := (htime t hs ht).1 hfits
        rw [hs, denotes_time ht, hns, ← hstrict.nanos_eq]
        exact ⟨hstrict, hfits.frac, rfl⟩
      · rw [IsInt, hsplit] at hint
        rw [(isInt_of_digits hint.1 hint.2).2] at hin hns
        exact hns ▸ .nanos _ hint.1 hint.2 hin
    · generalize hs : c :: rest = s
      intro h
      cases h with
      | nanos _ hne hdigits hin =>
        obtain ⟨hint, hval⟩ := isInt_of_digits hne hdigits
        exact .inr (.inr ⟨hint, hval.symm ▸ hin, hval.symm⟩)
      | date d h hin => exact .inl ⟨d, rfl, h.loose, h.nanos_eq.symm ▸ hin, h.nanos_eq.symm⟩
      | time t h hin =>
        have hmidnight := (htime t hs h.loose).2 h hin
        rw [← h.date.nanos_eq] at hmidnight
        rw [← h.nanos_eq] at hin
        exact .inr (.inl ⟨t, rfl, h.loose, h.fits hmidnight hin, h.nanos_eq.symm⟩)

/-- A leap day is read as the instant it denotes. -/
theorem temporal_exact_leap_day :
    parseTemporal "2024-02-29".toList = .ok 1709164800000000000 ∧ DenotesInstant "2024-02-29".toList 1709164800000000000 := by
  have hstrict : (⟨"2024".toList, "02".toList, "29".toList, '-'⟩ : DateText).Strict :=
    ⟨⟨rfl, List.all_eq_true.mp rfl⟩, ⟨rfl, List.all_eq_true.mp rfl⟩, ⟨rfl, List.all_eq_true.mp rfl⟩, rfl, by decide +kernel⟩
  have hread : parseTemporal "2024-02-29".toList = .ok 1709164800000000000 := by decide +kernel
  have hexact : ∀ ns, parseTemporal "2024-02-29".toList = .ok ns ↔ DenotesInstant "2024-02-29".toList ns := by
    refine (temporal_exact_iff '2' "024-02-29".toList rfl).mpr ⟨fun d hs hd _ => ?_,
      fun t hs ht => absurd hs (text_ne hstrict.loose ht)⟩
    obtain ⟨rfl, -⟩ := DateText.text_inj hstrict.loose hd (congrArg (· ++ []) hs)
    exact hstrict
  exact ⟨hread, (hexact _).mp hread⟩

/-- The thirtieth of February is read as the first of March. -/
theorem temporal_not_exact :
    ¬ ∀ (c : Char) (rest : List Char), c.isDigit = true → ∀ ns, parseTemporal (c :: rest) = .ok ns ↔ DenotesInstant (c :: rest) ns := by
  intro h
  have hread : parseTemporal "2024-02-30".toList = .ok 1709251200000000000 := by decide +kernel
  have hloose : (⟨"2024".toList, "02".toList, "30".toList, '-'⟩ : DateText).Loose :=
    ⟨⟨rfl, by decide +kernel, List.all_eq_true.mp rfl⟩, ⟨rfl, by decide +kernel, List.all_eq_true.mp rfl⟩,
      ⟨rfl, by decide +kernel, List.all_eq_true.mp rfl⟩, rfl⟩
  have hden := (h '2' "024-02-30".toList rfl _).mp hread
  have hdate := ((denotes_date hloose).mp hden).1.date
  exact absurd hdate (by decide)

end Nyxis

import Nyxis.Source

/-!
# Temporal — dates and instants in source text

`parseTemporal` reads a date, a date with a time of day, or a number of nanoseconds.  It slices the text at fixed byte
positions, and it does not look at every separator.
-/

namespace Nyxis

open Lib Lib.Outcome

/-! ## Slices of text -/

/-- The characters in the first `n` bytes, and the rest; nothing where a character goes across. -/
def splitBytes : List Char → ℕ → Option (List Char × List Char)
  | l, 0 => some ([], l)
  | [], _ + 1 => none
  | c :: l, n + 1 =>
    if c.utf8Size ≤ n + 1 then (splitBytes l (n + 1 - c.utf8Size)).map fun (a, b) => (c :: a, b) else none

/-- `s.len()`. -/
def byteLen (s : List Char) : ℕ := (s.map Char.utf8Size).sum

/-- `s.get(a..)`. -/
def suffixFrom (s : List Char) (a : ℕ) : Option (List Char) := (splitBytes s a).map Prod.snd

/-- `&s[a..b]`: a position inside a character, or behind the text, is a panic. -/
def sliceStr (s : List Char) (a b : ℕ) : Res (List Char) :=
  match (suffixFrom s a).bind fun t => splitBytes t (b - a) with
  | some (t, _) => .ok t
  | none => .panic

/-- The character that starts at byte `i`.  A byte below 0x80 is one of its own, so that
`s.as_bytes().get(i) == Some(&b'-')` is `charAtByte s i = some '-'`. -/
def charAtByte (s : List Char) (i : ℕ) : Option Char := (suffixFrom s i).bind List.head?

/-! ## Instants -/

/-- A number in the range of `i64`. -/
def InI64 (n : ℤ) : Prop := -2 ^ 63 ≤ n ∧ n < 2 ^ 63

instance (n : ℤ) : Decidable (InI64 n) := inferInstanceAs (Decidable (_ ∧ _))

/-- A checked operation on `i64` with this exact result. -/
def checkedI64 (n : ℤ) (e : NxsError) : Res ℤ := if InI64 n then .ok n else .err e

/-- `s.parse::<i64>()` with its error mapped. -/
def parseOr (s : List Char) (e : NxsError) : Res ℤ := okOr (ofOption ((parseI64 s).map Int64.toInt)) e

def daysSinceEpoch (year month day : ℤ) : ℤ :=
  let a := (14 - month).tdiv 12
  let y := year + 4800 - a
  let m := month + 12 * a - 3
  let jdn := day + (153 * m + 2).tdiv 5 + 365 * y + y.tdiv 4 - y.tdiv 100 + y.tdiv 400 - 32045
  jdn - 2440588 -- JDN of 1970-01-01

/-- A number of two or four characters at byte `a`. -/
def fieldAt (s : List Char) (a b : ℕ) (e : NxsError) : Res ℤ := do
  let t ← sliceStr s a b
  parseOr t e

/-- The arm for `YYYY-MM-DD`. -/
def parseDate (s : List Char) : Res ℤ := do
  let year ← fieldAt s 0 4 (.parseError s!"bad date: {String.ofList s}")
  let month ← fieldAt s 5 7 (.parseError s!"bad date: {String.ofList s}")
  let day ← fieldAt s 8 10 (.parseError s!"bad date: {String.ofList s}")
  checkedI64 (daysSinceEpoch year month day * 86400000000000) (.parseError s!"temporal overflow: {String.ofList s}")

/-- The nanoseconds of a fraction of a second, which starts with its point. -/
def parseFraction (s : List Char) : Res ℤ :=
  match suffixFrom s 19 with
  | some ('.' :: frac) => do
    ensure (¬ (frac = [] ∨ byteLen frac > 9 ∨ frac.all Char.isDigit = false)) (.parseError s!"bad temporal: {String.ofList s}")
    parseOr (frac ++ List.replicate (9 - frac.length) '0') (.parseError s!"bad temporal: {String.ofList s}")
  | _ => if byteLen s = 19 then .ok 0 else .err (.parseError s!"bad temporal: {String.ofList s}")

/-- The text has the length and the fifth character of a date. -/
def dateShaped (s : List Char) : Bool := byteLen s == 10 && s[4]? == some '-'

/-- The text has the length and the separators of a date-time that are looked at. -/
def dateTimeShaped (s : List Char) : Bool :=
  decide (19 ≤ byteLen s) && charAtByte s 4 == some '-' && charAtByte s 10 == some 'T'

/-- The arm for a number of nanoseconds. -/
def parseNanos (s : List Char) : Res ℤ := parseOr s (.parseError s!"bad temporal: {String.ofList s}")

/-- The arm for `YYYY-MM-DDTHH:MM:SS` and a fraction. -/
def parseDateTime (s : List Char) : Res ℤ := do
  let date ← sliceStr s 0 10
  -- `parse_temporal(&s[..10])`, which is too short for this arm
  let dateNs ← (if dateShaped date then parseDate date else parseNanos date)
  let hour ← fieldAt s 11 13 (.parseError s!"bad temporal: {String.ofList s}")
  let minute ← fieldAt s 14 16 (.parseError s!"bad temporal: {String.ofList s}")
  let second ← fieldAt s 17 19 (.parseError s!"bad temporal: {String.ofList s}")
  ensure (¬ (hour > 23 ∨ minute > 59 ∨ second > 59)) (.parseError s!"bad temporal: {String.ofList s}")
  let fracNs ← parseFraction s
  let ns ← checkedI64 (dateNs + hour * 3600000000000) (.parseError s!"temporal overflow: {String.ofList s}")
  let ns ← checkedI64 (ns + minute * 60000000000) (.parseError s!"temporal overflow: {String.ofList s}")
  let ns ← checkedI64 (ns + second * 1000000000) (.parseError s!"temporal overflow: {String.ofList s}")
  checkedI64 (ns + fracNs) (.parseError s!"temporal overflow: {String.ofList s}")

/-- `parse_temporal`. -/
def parseTemporal (s : List Char) : Res ℤ :=
  if dateShaped s then parseDate s
  else if dateTimeShaped s then parseDateTime s
  else parseNanos s

end Nyxis

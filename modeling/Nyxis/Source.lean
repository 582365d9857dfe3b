import Nyxis.Format

/-!
# Source — parsed source text and its macros

A source is parsed to a list of `Field`s, keys with a `Value`.  A value may be a macro, an expression
over the fields of the object it stands in; `resolveMacro` evaluates it.  Numbers in an expression are
read as Rust's `parse` reads them.
-/

namespace Nyxis

open Lib Lib.Outcome

mutual

inductive Value where
  | int (n : Int64)
  | float (f : F64)
  | bool (b : Bool)
  | keyword (s : String)
  | str (s : String)
  | time (ns : Int64)
  | binary (raw : Bytes)
  | link (off : Int32)
  /-- `Value::Macro`. -/
  | expr (s : String)
  | null
  | object (fields : List Field)
  | list (elems : List Value)

inductive Field where
  | mk (key : String) (value : Value)

end

def Field.key : Field → String
  | .mk key _ => key

def Field.value : Field → Value
  | .mk _ value => value

/-- `value_sigil_byte`. -/
def Value.sigil : Value → UInt8
  | .int _ => SIGIL_INT
  | .float _ => SIGIL_FLOAT
  | .bool _ => SIGIL_BOOL
  | .keyword _ => SIGIL_KEYWORD
  | .str _ => SIGIL_STR
  | .time _ => SIGIL_TIME
  | .binary _ => SIGIL_BINARY
  | .link _ => SIGIL_LINK
  | .null => SIGIL_NULL
  | .object _ => 0x4F -- `O`
  | .list _ => 0x4C -- `L`
  | .expr _ => 0x21 -- `!`

/-! ## Numbers in text -/

/-- The characters that `str::trim` removes: those with the property `White_Space`. -/
def isWhitespace (c : Char) : Bool :=
  let n := c.toNat
  (0x09 ≤ n && n ≤ 0x0D) || n == 0x20 || n == 0x85 || n == 0xA0 || n == 0x1680 ||
    (0x2000 ≤ n && n ≤ 0x200A) || n == 0x2028 || n == 0x2029 || n == 0x202F || n == 0x205F || n == 0x3000

/-- `s.trim()`. -/
def trim (l : List Char) : List Char :=
  ((l.dropWhile isWhitespace).reverse.dropWhile isWhitespace).reverse

/-- The number that a sequence of decimal digits stands for. -/
def digitsNat (l : List Char) : ℕ := l.foldl (fun n c => 10 * n + (c.toNat - 48)) 0

/-- A sign, if there is one: whether it is a minus, and what follows. -/
def splitSign : List Char → Bool × List Char
  | '-' :: rest => (true, rest)
  | '+' :: rest => (false, rest)
  | l => (false, l)

/-- `s.parse::<i64>().ok()`. -/
def parseI64 (l : List Char) : Option Int64 :=
  let (neg, digits) := splitSign l
  if digits.isEmpty || !digits.all Char.isDigit then none
  else
    let n := digitsNat digits
    if neg then if n ≤ 2 ^ 63 then some (.ofInt (-n)) else none
    else if n < 2 ^ 63 then some (.ofNat n) else none

/-- The decimal exponent at the end of a number: none at all, or `e`, a sign and digits. -/
def parseExponent : List Char → Option ℤ
  | [] => some 0
  | c :: rest =>
    let (neg, digits) := splitSign rest
    if (c ≠ 'e' ∧ c ≠ 'E') ∨ digits.isEmpty ∨ ¬ digits.all Char.isDigit then none
    else some (if neg then -(digitsNat digits : ℤ) else digitsNat digits)

/-- The `f64` nearest to `n * 10 ^ e`. -/
def decimalF64 (n : ℕ) (e : ℤ) : F64 := F64.ofQuot (n * 10 ^ e.toNat) (10 ^ (-e).toNat)

/-- A number without its sign. -/
def parseMagnitude (l : List Char) : Option F64 :=
  let lower := l.map Char.toLower
  if lower = ['i', 'n', 'f'] ∨ lower = ['i', 'n', 'f', 'i', 'n', 'i', 't', 'y'] then
    some ⟨0x7FF0000000000000⟩
  else if lower = ['n', 'a', 'n'] then some ⟨0x7FF8000000000000⟩
  else
    let whole := l.takeWhile Char.isDigit
    let rest := l.dropWhile Char.isDigit
    let (frac, rest) := match rest with
      | '.' :: more => (more.takeWhile Char.isDigit, more.dropWhile Char.isDigit)
      | _ => ([], rest)
    if whole.isEmpty && frac.isEmpty then none
    else (parseExponent rest).map fun e => decimalF64 (digitsNat (whole ++ frac)) (e - frac.length)

/-- `-x`. -/
def F64.neg (x : F64) : F64 := ⟨x.bits ^^^ 0x8000000000000000⟩

/-- `s.parse::<f64>().ok()`. -/
def parseF64 (l : List Char) : Option F64 :=
  let (neg, body) := splitSign l
  (parseMagnitude body).map fun x => if neg then x.neg else x

/-- The number as a multiple of `2 ^ (-1074)`; for a pattern that is not infinite or NaN. -/
def F64.scaled (x : F64) : ℤ :=
  let m : ℕ := if x.exponent = 0 then x.mantissa else (2 ^ 52 + x.mantissa) * 2 ^ (x.exponent - 1)
  if x.sign = 0 then m else -m

def F64.isInf (x : F64) : Bool := x.exponent == 2047 && x.mantissa == 0

/-- `x + y`. -/
def F64.add (x y : F64) : F64 :=
  if x.isNaN || y.isNaN || (x.isInf && y.isInf && x.sign != y.sign) then ⟨0x7FF8000000000000⟩
  else if x.isInf then x
  else if y.isInf then y
  else
    let s := x.scaled + y.scaled
    if s = 0 then if x.sign = 1 ∧ y.sign = 1 then zero.neg else zero
    else
      let r := F64.ofQuot s.natAbs (2 ^ 1074)
      if s < 0 then r.neg else r

/-! ## Macros -/

/-- The text before and behind the first ` + `. -/
def splitPlus : List Char → Option (List Char × List Char)
  | [] => none
  | c :: rest =>
    match c :: rest with
    | ' ' :: '+' :: ' ' :: right => some ([], right)
    | _ => (splitPlus rest).map fun (left, right) => (c :: left, right)

/-- The sum of two values of one kind. -/
def addValues (expr : List Char) : Value → Value → Res Value
  | .str a, .str b => .ok (.str (a ++ b))
  | .int a, .int b =>
    let s := a.toInt + b.toInt
    if -2 ^ 63 ≤ s ∧ s < 2 ^ 63 then .ok (.int (.ofInt s)) else .err .overflow
  | .float a, .float b => .ok (.float (a.add b))
  | _, _ => .err (.macroUnresolved s!"incompatible types in +: {String.ofList expr}")

/-- `eval_macro`; the first argument bounds the number of nested sums, which are shorter and shorter. -/
def evalMacro (scope : List Field) : ℕ → List Char → Res Value
  | 0, _ => .panic
  | fuel + 1, text =>
    let expr := trim text
    match expr with
    | '@' :: key =>
      okOr (ofOption ((scope.find? fun f => f.key == String.ofList key).map Field.value))
        (.macroUnresolved s!"@{String.ofList key} not found in scope")
    | _ =>
      if expr = ['n', 'o', 'w', '(', ')'] then .ok (.time 0)
      else if expr.head? = some '"' ∧ expr.getLast? = some '"' then
        -- `&expr[1..expr.len() - 1]` panics on a lone quote
        if expr.length < 2 then .panic else .ok (.str (String.ofList expr.tail.dropLast))
      else
        match parseI64 expr, parseF64 expr, splitPlus expr with
        | some n, _, _ => .ok (.int n)
        | none, some f, _ => .ok (.float f)
        | none, none, some (left, right) => do
          let a ← evalMacro scope fuel (trim left)
          let b ← evalMacro scope fuel (trim right)
          addValues expr a b
        | none, none, none => .err (.macroUnresolved s!"cannot evaluate: {String.ofList expr}")

def resolveMacro (scope : List Field) : Value → Res Value
  | .expr s => evalMacro scope (s.length + 1) s.toList
  | v => .ok v

end Nyxis

import Mathlib.Data.Nat.Log
import Mathlib.Tactic.Ring

/-!
# Float — `f64` as bit patterns

`F64` is the bit pattern of a binary64 number with the IEEE 754 comparisons.  `roundQuot` rounds a
quotient to the nearest integer, ties to even; `F64.ofQuot` is the nearest `f64`
of a rational, and `F64.toF32`, `F64.ofF32` are the casts between the two widths.
-/

namespace Nyxis

/-- A `f64`, as its bit pattern. -/
structure F64 where
  bits : UInt64
  deriving DecidableEq, Repr

/-- The nearest integer of `num / den`, ties to even. -/
def roundQuot (num den : ℕ) : ℕ :=
  let q := num / den
  let r := num % den
  if 2 * r > den ∨ (2 * r = den ∧ q % 2 = 1) then q + 1 else q

theorem roundQuot_le {num den q : ℕ} (h : num ≤ q * den) (hden : 0 < den) : roundQuot num den ≤ q := by
  have hdiv := Nat.div_add_mod num den
  have hle : num / den ≤ q := Nat.div_le_of_le_mul (by rw [Nat.mul_comm]; exact h)
  have hmod := Nat.mod_lt num hden
  rw [roundQuot]
  split
  · rcases Nat.lt_or_ge (num / den) q with hlt | hge
    · exact hlt
    · have heq : num / den = q := Nat.le_antisymm hle hge
      rw [heq, Nat.mul_comm] at hdiv
      omega
  · exact hle

namespace F64

def zero : F64 := ⟨0⟩

def sign (x : F64) : ℕ := x.bits.toNat / 2 ^ 63

def exponent (x : F64) : ℕ := x.bits.toNat / 2 ^ 52 % 2 ^ 11

def mantissa (x : F64) : ℕ := x.bits.toNat % 2 ^ 52

def isNaN (x : F64) : Bool := x.exponent == 2047 && x.mantissa != 0

/-- A number that orders the patterns other than NaN as IEEE 754 does (both zeros are `0`). -/
def order (x : F64) : ℤ :=
  if x.sign = 0 then x.bits.toNat else -(x.bits.toNat - 2 ^ 63 : ℤ)

/-- `x == y`. -/
def eq (x y : F64) : Bool := !x.isNaN && !y.isNaN && x.order == y.order

/-- `x < y`. -/
def lt (x y : F64) : Bool := !x.isNaN && !y.isNaN && decide (x.order < y.order)

/-- The `f64` nearest to `num / den`, ties to even.  The significand is `num / den` scaled by
`2 ^ s`, where `s` makes it fill 53 bits or, for a subnormal number, is 1074. -/
def ofQuot (num den : ℕ) : F64 :=
  if num = 0 then zero
  else
    let s₀ : ℤ := 52 - ((Nat.log 2 num : ℤ) - Nat.log 2 den)
    let s₁ := if num * 2 ^ s₀.toNat < 2 ^ 52 * (den * 2 ^ (-s₀).toNat) then s₀ + 1 else s₀
    let s := min s₁ 1074
    let q := roundQuot (num * 2 ^ s.toNat) (den * 2 ^ (-s).toNat)
    ⟨UInt64.ofNat (min ((1074 - s).toNat * 2 ^ 52 + q) 0x7FF0000000000000)⟩

/-- `n as f64` of a `usize`, as the integer it stands for. -/
def roundNat (n : ℕ) : ℕ :=
  let k := Nat.log 2 n - 52
  roundQuot n (2 ^ k) * 2 ^ k

/-- `a as f64 / b as f64` of two `usize`. -/
def natDiv (a b : ℕ) : F64 := ofQuot (roundNat a) (roundNat b)

/-- `x as f32`, as the bits of the result. -/
def toF32 (x : F64) : ℕ :=
  let s := x.sign * 2 ^ 31
  if x.exponent = 2047 then
    s + 0x7F800000 + (if x.mantissa = 0 then 0 else x.mantissa / 2 ^ 29 ||| 0x400000)
  else if x.exponent = 0 then s
  else
    let m := 2 ^ 52 + x.mantissa
    if 897 ≤ x.exponent then
      s + min ((x.exponent - 897) * 2 ^ 23 + roundQuot m (2 ^ 29)) 0x7F800000
    else s + roundQuot m (2 ^ (29 + (897 - x.exponent)))

/-- The bits of an `f32` fit four bytes. -/
theorem toF32_lt (x : F64) : x.toF32 < 256 ^ 4 := by
  have hsign : x.sign ≤ 1 := by
    rw [sign]
    have := x.bits.toNat_lt
    omega
  have hman : x.mantissa < 2 ^ 52 := Nat.mod_lt _ (by decide)
  rw [toF32]
  dsimp only
  split
  · have hor : x.mantissa / 2 ^ 29 ||| 0x400000 < 2 ^ 23 := Nat.or_lt_two_pow (by omega) (by decide)
    split <;> omega
  split
  · omega
  split
  · omega
  · have hq : roundQuot (2 ^ 52 + x.mantissa) (2 ^ (29 + (897 - x.exponent))) ≤ 2 ^ 24 := by
      refine roundQuot_le ?_ (Nat.two_pow_pos _)
      have : 2 ^ 29 ≤ 2 ^ (29 + (897 - x.exponent)) := Nat.pow_le_pow_right (by decide) (Nat.le_add_right _ _)
      omega
    omega

/-- `f64::from(x)` of the `f32` with bits `x`. -/
def ofF32 (x : ℕ) : F64 :=
  let s := x / 2 ^ 31 * 2 ^ 63
  let e := x / 2 ^ 23 % 2 ^ 8
  let m := x % 2 ^ 23
  let rest :=
    if e = 255 then 2047 * 2 ^ 52 + (if m = 0 then 0 else m * 2 ^ 29 ||| 2 ^ 51)
    else if e = 0 then
      if m = 0 then 0
      else
        let k := Nat.log 2 m
        (k + 874) * 2 ^ 52 + (m - 2 ^ k) * 2 ^ (52 - k)
    else (e + 896) * 2 ^ 52 + m * 2 ^ 29
  ⟨UInt64.ofNat (s + rest)⟩

example : natDiv 16 32 = ⟨0x3FE0000000000000⟩ := by decide +kernel

end F64

end Nyxis

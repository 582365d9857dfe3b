import Mathlib.Data.Nat.Bitwise
import Mathlib.Data.Nat.BitIndices
import Nyxis.Lib.Bytes

/-!
# Lib.Bits — bits packed into bytes

`byteOfBits p` is the byte whose bit `j` is `p j`, and `bitBytes k p` are `k` such bytes holding the
bits `p 0, p 1, …` in order, the lowest bit of a byte first.  `bitAt` reads a bit back.  A LEB128 mask
(`maskBytes`) has seven bits to a byte, the eighth of which says whether another byte follows.
-/

namespace Nyxis.Lib

open Outcome

/-- The byte with the bits `p 0`, …, `p 7`. -/
def byteOfBits (p : ℕ → Bool) : UInt8 := UInt8.ofNat (Nat.ofBits fun i : Fin 8 => p i)

theorem byteOfBits_toNat (p : ℕ → Bool) :
    (byteOfBits p).toNat = Nat.ofBits fun i : Fin 8 => p i := by
  have h := Nat.ofBits_lt_two_pow fun i : Fin 8 => p i
  rw [byteOfBits, UInt8.toNat_ofNat', Nat.mod_eq_of_lt h]

theorem or_shift {a b k : ℕ} (ha : a < 2 ^ k) : a ||| b <<< k = a + 2 ^ k * b := by
  rw [Nat.or_comm, Nat.shiftLeft_eq, Nat.mul_comm, ← Nat.two_pow_add_eq_or_of_lt ha, Nat.add_comm]

theorem testBit_byteOfBits (p : ℕ → Bool) {j : ℕ} (hj : j < 8) :
    (byteOfBits p).toNat.testBit j = p j := by
  rw [byteOfBits_toNat, Nat.testBit_ofBits_lt _ j hj]

/-- `k` bytes holding the bits `p 0`, …, `p (8 * k - 1)`. -/
def bitBytes (k : ℕ) (p : ℕ → Bool) : Bytes :=
  (List.range k).map fun i => byteOfBits fun j => p (8 * i + j)

@[simp] theorem bitBytes_length (k : ℕ) (p : ℕ → Bool) : (bitBytes k p).length = k := by
  simp [bitBytes]

/-- `(d[i / 8] >> (i % 8)) & 1 == 1`. -/
def bitAt {ε : Type} (d : Bytes) (i : ℕ) : Outcome ε Bool := do
  let b ← index d (i / 8)
  .ok (b.toNat.testBit (i % 8))

theorem bitAt_bitBytes {ε : Type} {k i : ℕ} (p : ℕ → Bool) (hi : i < 8 * k) :
    (bitAt (bitBytes k p) i : Outcome ε Bool) = .ok (p i) := by
  have hk : i / 8 < k := by omega
  have hget : (bitBytes k p)[i / 8]? = some (byteOfBits fun j => p (8 * (i / 8) + j)) := by
    simp [bitBytes, hk]
  rw [bitAt, index, hget, ok_bind, testBit_byteOfBits _ (Nat.mod_lt i (by decide))]
  rw [Nat.div_add_mod]

theorem byteOfBits_congr {p q : ℕ → Bool} (h : ∀ j < 8, p j = q j) : byteOfBits p = byteOfBits q := by
  have hpq : (fun i : Fin 8 => p i) = fun i : Fin 8 => q i := funext fun i => h i i.isLt
  rw [byteOfBits, byteOfBits, hpq]

/-- Setting one bit. -/
theorem byteOfBits_or (p : ℕ → Bool) {b : ℕ} (hb : b < 8) :
    byteOfBits p ||| UInt8.ofNat (2 ^ b) = byteOfBits fun j => j == b || p j := by
  apply UInt8.toNat.inj
  refine Nat.eq_of_testBit_eq fun j => ?_
  have hpow : 2 ^ b < 2 ^ 8 := Nat.pow_lt_pow_right (by decide) hb
  rw [UInt8.toNat_or, Nat.testBit_or, UInt8.toNat_ofNat', Nat.mod_eq_of_lt hpow,
    Nat.testBit_two_pow]
  by_cases hj : j < 8
  · rw [testBit_byteOfBits _ hj, testBit_byteOfBits _ hj, Bool.or_comm]
    have hcomm : decide (b = j) = (j == b) := by
      rw [Bool.eq_iff_iff, decide_eq_true_iff, beq_iff_eq, eq_comm]
    rw [hcomm]
  · have hout : ∀ q, (byteOfBits q).toNat.testBit j = false := fun q =>
      Nat.testBit_lt_two_pow ((byteOfBits q).toNat_lt.trans_le (Nat.pow_le_pow_right (by decide)
        (by omega : 8 ≤ j)))
    rw [hout, hout, Bool.false_or, decide_eq_false_iff_not]
    omega

/-- `k` mask bytes holding the bits `p 0`, …, `p (7 * k - 1)`. -/
def maskBytes (k : ℕ) (p : ℕ → Bool) : Bytes :=
  (List.range k).map fun i => byteOfBits fun b => if b = 7 then decide (i + 1 < k) else p (7 * i + b)

@[simp] theorem maskBytes_length (k : ℕ) (p : ℕ → Bool) : (maskBytes k p).length = k := by
  simp [maskBytes]

theorem maskBytes_getElem? {k i : ℕ} (p : ℕ → Bool) (hi : i < k) :
    (maskBytes k p)[i]? =
      some (byteOfBits fun b => if b = 7 then decide (i + 1 < k) else p (7 * i + b)) := by
  simp [maskBytes, hi]

/-- Byte `i` of a mask. -/
theorem get_maskBytes {d : Bytes} {pos k i : ℕ} {p : ℕ → Bool} (hat : At d pos (maskBytes k p)) (hi : i < k) :
    get d (pos + i) = .ok (byteOfBits fun b => if b = 7 then decide (i + 1 < k) else p (7 * i + b)) := by
  obtain ⟨pre, post, rfl, rfl⟩ := hat
  rw [Lib.get, List.append_assoc, List.getElem?_append_right (by omega), Nat.add_sub_cancel_left,
    List.getElem?_append_left (by rw [maskBytes_length]; exact hi), maskBytes_getElem? p hi, ofOption_some]

/-- Setting one bit of a mask. -/
theorem maskBytes_set {k s : ℕ} (p : ℕ → Bool) (hs : s / 7 < k) {byte : UInt8}
    (hbyte : (maskBytes k p)[s / 7]? = some byte) :
    (maskBytes k p).set (s / 7) (byte ||| UInt8.ofNat (2 ^ (s % 7))) =
      maskBytes k fun i => i == s || p i := by
  rw [maskBytes_getElem? p hs] at hbyte
  cases hbyte
  refine List.ext_getElem? fun i => ?_
  rw [List.getElem?_set]
  by_cases hi : s / 7 = i
  · subst hi
    rw [if_pos rfl, if_pos (by rw [maskBytes_length]; exact hs), maskBytes_getElem? _ hs,
      byteOfBits_or _ (by omega)]
    congr 1
    refine byteOfBits_congr fun b hb => ?_
    by_cases h7 : b = 7
    · subst h7
      simp only [if_true]
      rw [Bool.or_eq_right_iff_imp]
      intro hb7
      have : 7 = s % 7 := by simpa using hb7
      omega
    · simp only [h7, if_false]
      congr 1
      rw [Bool.eq_iff_iff]
      simp only [beq_iff_eq]
      omega
  · rw [if_neg hi]
    by_cases hik : i < k
    · rw [maskBytes_getElem? _ hik, maskBytes_getElem? _ hik]
      congr 1
      refine byteOfBits_congr fun b hb => ?_
      by_cases h7 : b = 7
      · simp [h7]
      · simp only [h7, if_false]
        have hne : (7 * i + b == s) = false := by
          rw [beq_eq_false_iff_ne]
          omega
        rw [hne, Bool.false_or]
    · rw [List.getElem?_eq_none (by rw [maskBytes_length]; omega),
        List.getElem?_eq_none (by rw [maskBytes_length]; omega)]

/-- Clearing the bits of `m` in a multiple of `2 ^ k` to which only bits of `m` below `k` were added. -/
theorem land_clear {n k q l m : ℕ} (hx : 2 ^ k * q + l < 2 ^ n) (hl : l < 2 ^ k) (hm : m < 2 ^ k) (hk : k ≤ n)
    (hsub : ∀ i, l.testBit i = true → m.testBit i = true) : (2 ^ k * q + l) &&& (2 ^ n - (m + 1)) = 2 ^ k * q := by
  have hpow : 2 ^ k ≤ 2 ^ n := Nat.pow_le_pow_right (by decide) hk
  refine Nat.eq_of_testBit_eq fun i => ?_
  rw [Nat.testBit_and, Nat.testBit_two_pow_sub_succ (by omega), Nat.testBit_two_pow_mul_add q hl, Nat.testBit_two_pow_mul]
  by_cases hi : i < k
  · rw [if_pos hi, decide_eq_false (show ¬ i ≥ k by omega), Bool.false_and]
    cases hbit : l.testBit i with
    | false => rfl
    | true => rw [hsub i hbit, Bool.not_true, Bool.and_false, Bool.and_false]
  · have hmi : m.testBit i = false := Nat.testBit_lt_two_pow (hm.trans_le (Nat.pow_le_pow_right (by decide) (by omega)))
    rw [if_neg hi, decide_eq_true (show i ≥ k by omega), Bool.true_and, hmi, Bool.not_false, Bool.and_true]
    by_cases hin : i < n
    · rw [decide_eq_true hin, Bool.and_true]
    · have hq : q.testBit (i - k) = false := by
        have hbit : (2 ^ k * q + l).testBit i = q.testBit (i - k) := by
          rw [Nat.testBit_two_pow_mul_add q hl, if_neg hi]
        rw [← hbit]
        exact Nat.testBit_lt_two_pow (hx.trans_le (Nat.pow_le_pow_right (by decide) (by omega)))
      rw [hq, Bool.false_and]

/-- Clearing the bits of `m` takes away at most `m`. -/
theorem le_land_clear {n x m : ℕ} (hx : x < 2 ^ n) (hm : m < 2 ^ n) : x ≤ (x &&& (2 ^ n - (m + 1))) + m := by
  have hsplit : BitVec.ofNat n x = (BitVec.ofNat n x &&& ~~~BitVec.ofNat n m) + (BitVec.ofNat n x &&& BitVec.ofNat n m) := by
    rw [BitVec.add_eq_or_of_and_eq_zero]
    · ext i
      simp only [BitVec.getElem_or, BitVec.getElem_and, BitVec.getElem_not]
      cases (BitVec.ofNat n x)[i] <;> cases (BitVec.ofNat n m)[i] <;> rfl
    · ext i
      simp only [BitVec.getElem_and, BitVec.getElem_not, BitVec.getElem_zero]
      cases (BitVec.ofNat n x)[i] <;> cases (BitVec.ofNat n m)[i] <;> rfl
  have hnat := congrArg BitVec.toNat hsplit
  rw [BitVec.toNat_add, BitVec.toNat_and, BitVec.toNat_and, BitVec.toNat_not, BitVec.toNat_ofNat, BitVec.toNat_ofNat,
    Nat.mod_eq_of_lt hx, Nat.mod_eq_of_lt hm, Nat.sub_sub, Nat.add_comm 1 m] at hnat
  have hmod := Nat.mod_le ((x &&& (2 ^ n - (m + 1))) + (x &&& m)) (2 ^ n)
  have hland := Nat.and_le_right (n := x) (m := m)
  omega
end Nyxis.Lib

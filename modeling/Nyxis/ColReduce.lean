import Mathlib.Algebra.BigOperators.Fin
import Mathlib.Algebra.BigOperators.Group.Finset.Basic
import Nyxis.Query

/-!
# ColReduce — the sum of a column

A column without absent cells is summed in blocks of SIMD lanes, any other column bit by bit.  Sums are taken in any
commutative monoid in place of floating-point addition.

* `simdLoop_sum`: the accumulators hold the cells up to the position of the loop.
* `dense_sum_iff`: the dense sum is the sparse sum, where the bitmap test does not overflow.
-/

namespace Nyxis

open Lib Lib.Outcome

namespace ColReduce

/-! ## The source -/

/-- `(1u8 << rem) - 1`. -/
def remMask (rem : ℕ) : UInt8 := (1 : UInt8) <<< UInt8.ofNat rem - (1 : UInt8)

/-- Every record index `0..n` is set in the null bitmap. -/
def nullBitmapDense (bm : Bytes) (n : ℕ) : Opt Bool :=
  if n = 0 then .ok true
  else do
    let up ← usizeAdd n 7
    let need := up / 8
    if bm.length < need then .ok false
    else do
      let full := n / 8
      let head ← range bm 0 full
      if head.any (· != 0xFF) then .ok false
      else do
        let rem := n % 8
        if rem = 0 then .ok true
        else do
          let mask := remMask rem
          let b ← index bm full
          .ok (b &&& mask == mask)

section

variable {M : Type} [AddCommMonoid M] (fromLe : Bytes → M)

/-- Cell `i` of the dense values, read without a check. -/
def cell (vals : Bytes) (i : ℕ) : M := fromLe ((vals.drop (i * 8)).take 8)

/-- `sum += v` for the cell at `i`, where the values have one. -/
def addCell (vals : Bytes) (sum : M) (i : ℕ) : Opt M := do
  let off ← usizeMul i 8
  let stop ← usizeAdd off 8
  match getRange vals off stop with
  | .ok chunk => .ok (sum + fromLe chunk)
  | _ => .ok sum

def sumF64Sparse (vals bm : Bytes) (n : ℕ) : Opt M :=
  (List.range n).foldlM (fun sum i => do
    let set ← bitAt bm i
    if set then addCell fromLe vals sum i else .ok sum) 0

def sumF64Scalar (vals : Bytes) (n : ℕ) : Opt M := (List.range n).foldlM (addCell fromLe vals) 0

/-- A register of `w` lanes, loaded from the cells at `i`. -/
def loadu (w : ℕ) (vals : Bytes) (i : ℕ) : Fin w → M := fun lane => cell fromLe vals (i + lane)

/-- The loop over blocks of four registers of `w` lanes: where it ends, and its accumulators.  The first argument bounds
the number of blocks. -/
def simdLoop (w : ℕ) (vals : Bytes) (n : ℕ) : ℕ → ℕ → (Fin 4 → Fin w → M) → ℕ × (Fin 4 → Fin w → M)
  | 0, i, acc => (i, acc)
  | fuel + 1, i, acc =>
    if i + 4 * w ≤ n then
      simdLoop w vals n fuel (i + 4 * w) fun k => acc k + loadu fromLe w vals (i + k * w)
    else (i, acc)

/-- The cells from `i` on, added one by one. -/
def tailLoop (vals : Bytes) (n i : ℕ) (tail : M) : M :=
  (List.range' i (n - i)).foldl (fun tail i => tail + cell fromLe vals i) tail

/-- The sum in registers of `w` lanes, `hsum` adding up the lanes of one. -/
def sumF64Simd (w : ℕ) (hsum : (Fin w → M) → M) (vals : Bytes) (n : ℕ) : M :=
  let (i, acc) := simdLoop fromLe w vals n n 0 fun _ => 0
  tailLoop fromLe vals n i (hsum (acc 0 + acc 1 + (acc 2 + acc 3)))

/-- The four lanes are stored to an array, which is summed. -/
def hsumPd256 (v : Fin 4 → M) : M := (List.ofFn v).sum

def sumF64Avx2 (vals : Bytes) (n : ℕ) : M := sumF64Simd fromLe 4 hsumPd256 vals n

def vaddvqF64 (v : Fin 2 → M) : M := v 0 + v 1

def sumF64Neon (vals : Bytes) (n : ℕ) : M := sumF64Simd fromLe 2 vaddvqF64 vals n

/-- What the processor has. -/
inductive Simd where
  | avx2
  | neon
  | none
  deriving DecidableEq, Repr

def sumF64DenseLe (simd : Simd) (vals : Bytes) (n : ℕ) : Opt M :=
  match simd with
  | .avx2 => .ok (sumF64Avx2 fromLe vals n)
  | .neon => .ok (sumF64Neon fromLe vals n)
  | .none => sumF64Scalar fromLe vals n

def sumF64Column (simd : Simd) (vals bm : Bytes) (n : ℕ) : Opt M :=
  if n = 0 then .ok 0
  else do
    let dense ← nullBitmapDense bm n
    if dense && decide (vals.length ≥ min (n * 8) (2 ^ 64 - 1)) then sumF64DenseLe fromLe simd vals n -- `saturating_mul`
    else sumF64Sparse fromLe vals bm n

end

/-! ## The bitmap test -/

/-- The first `n` presence bits are set. -/
def FirstBitsSet (bm : Bytes) (n : ℕ) : Prop := ∀ i < n, ∃ b, bm[i / 8]? = some b ∧ b.toNat.testBit (i % 8) = true

theorem lowBits_iff (n k : ℕ) : n % 2 ^ k = 2 ^ k - 1 ↔ ∀ j < k, n.testBit j = true := by
  constructor
  · intro h j hj
    have hbit := congrArg (Nat.testBit · j) h
    simpa only [Nat.testBit_mod_two_pow, Nat.testBit_two_pow_sub_one, hj, decide_true, Bool.true_and] using hbit
  · intro h
    refine Nat.eq_of_testBit_eq fun j => ?_
    rw [Nat.testBit_mod_two_pow, Nat.testBit_two_pow_sub_one]
    by_cases hj : j < k
    · rw [h j hj, Bool.and_true]
    · simp [hj]

/-- The mask of the last byte selects its low bits. -/
theorem and_mask (b : UInt8) {k : ℕ} (hk : k < 8) :
    (b &&& remMask k == remMask k) = true ↔ ∀ j < k, b.toNat.testBit j = true := by
  have hmask : (remMask k).toNat = 2 ^ k - 1 := by
    revert k
    decide
  rw [beq_iff_eq, ← UInt8.toNat_inj, UInt8.toNat_and, hmask, Nat.and_two_pow_sub_one_eq_mod, lowBits_iff]

theorem eq_ff_iff (b : UInt8) : b = 0xFF ↔ ∀ j < 8, b.toNat.testBit j = true := by
  rw [← lowBits_iff, ← UInt8.toNat_inj, Nat.mod_eq_of_lt b.toNat_lt]
  rfl

/-- The first bits, by bytes. -/
theorem firstBitsSet_iff (bm : Bytes) (n : ℕ) : FirstBitsSet bm n ↔
    (∀ q < n / 8, bm[q]? = some 0xFF) ∧ ∀ j < n % 8, ∃ b, bm[n / 8]? = some b ∧ b.toNat.testBit j = true := by
  constructor
  · intro h
    refine ⟨fun q hq => ?_, fun j hj => ?_⟩
    · obtain ⟨b, hb, -⟩ := h (q * 8) (by omega)
      rw [Nat.mul_div_cancel _ (by decide)] at hb
      rw [hb, (eq_ff_iff b).mpr fun j hj => ?_]
      obtain ⟨c, hc, hbit⟩ := h (q * 8 + j) (by omega)
      rw [show (q * 8 + j) / 8 = q by omega, hb] at hc
      cases hc
      rwa [show (q * 8 + j) % 8 = j by omega] at hbit
    · obtain ⟨b, hb, hbit⟩ := h (n / 8 * 8 + j) (by omega)
      rw [show (n / 8 * 8 + j) / 8 = n / 8 by omega] at hb
      rw [show (n / 8 * 8 + j) % 8 = j by omega] at hbit
      exact ⟨b, hb, hbit⟩
  · rintro ⟨hfull, hlast⟩ i hi
    by_cases hq : i / 8 < n / 8
    · exact ⟨0xFF, hfull _ hq, (eq_ff_iff 0xFF).mp rfl _ (Nat.mod_lt i (by decide))⟩
    · rw [show i / 8 = n / 8 by omega]
      exact hlast _ (by omega)

/-- The bitmap test, where `n + 7` does not overflow. -/
theorem nullBitmapDense_eq {bm : Bytes} {n : ℕ} (hn : n + 7 < 2 ^ 64) :
    ∃ dense, nullBitmapDense bm n = .ok dense ∧ (dense = true ↔ FirstBitsSet bm n) := by
  rw [firstBitsSet_iff, nullBitmapDense]
  by_cases hzero : n = 0
  · subst hzero
    exact ⟨true, rfl, by simp⟩
  rw [if_neg hzero, usizeAdd_of hn, ok_bind]
  dsimp only
  by_cases hshort : bm.length < (n + 7) / 8
  · -- the byte of the last bit is missing
    refine ⟨false, if_pos hshort, iff_of_false (by decide) ?_⟩
    rw [← firstBitsSet_iff]
    intro h
    obtain ⟨b, hb, -⟩ := h (n - 1) (by omega)
    have := (List.getElem?_eq_some_iff.mp hb).1
    omega
  rw [if_neg hshort, range_of (Nat.zero_le _) (by omega), ok_bind, List.drop_zero, Nat.sub_zero]
  by_cases hany : (bm.take (n / 8)).any (· != 0xFF) = true
  · refine ⟨false, if_pos hany, iff_of_false (by decide) ?_⟩
    rintro ⟨hfull, -⟩
    obtain ⟨b, hb, hne⟩ := List.any_eq_true.mp hany
    obtain ⟨q, hq⟩ := List.mem_iff_getElem?.mp hb
    have hlt := (List.getElem?_eq_some_iff.mp hq).1
    rw [List.length_take] at hlt
    rw [List.getElem?_take_of_lt (by omega), hfull q (by omega)] at hq
    cases hq
    exact absurd hne (by decide)
  have hfull : ∀ q < n / 8, bm[q]? = some 0xFF := by
    intro q hq
    have hget := List.getElem?_eq_getElem (show q < bm.length by omega)
    rw [hget]
    by_contra hne
    refine hany (List.any_eq_true.mpr ⟨bm[q], List.mem_of_getElem? (i := q) ?_, ?_⟩)
    · rw [List.getElem?_take_of_lt hq, hget]
    · exact bne_iff_ne.mpr fun heq => hne (by rw [heq])
  rw [if_neg hany]
  by_cases hrem : n % 8 = 0
  · refine ⟨true, if_pos hrem, iff_of_true rfl ⟨hfull, fun j hj => ?_⟩⟩
    omega
  obtain ⟨b, hb⟩ : ∃ b, bm[n / 8]? = some b := ⟨_, List.getElem?_eq_getElem (show n / 8 < bm.length by omega)⟩
  rw [if_neg hrem, index, hb]
  refine ⟨_, rfl, ?_⟩
  rw [and_mask b (Nat.mod_lt n (by decide)), and_iff_right hfull]
  refine forall₂_congr fun j hj => ⟨fun h => ⟨b, rfl, h⟩, ?_⟩
  rintro ⟨c, hc, h⟩
  cases hc
  exact h

/-! ## Sums -/

section

variable {M : Type} [AddCommMonoid M] {fromLe : Bytes → M} {vals : Bytes}

/-- The sum of the first `n` cells. -/
def total (fromLe : Bytes → M) (vals : Bytes) (n : ℕ) : M := ∑ i ∈ Finset.range n, cell fromLe vals i

/-- What four registers hold, all together. -/
def held {w : ℕ} (acc : Fin 4 → Fin w → M) : M := ∑ k, ∑ lane, acc k lane

/-- A block of registers holds the cells of the block. -/
theorem held_load (w i : ℕ) : held (fun k : Fin 4 => loadu fromLe w vals (i + k * w)) =
    ∑ j ∈ Finset.range (4 * w), cell fromLe vals (i + j) := by
  have hregister : ∀ k : ℕ, ∑ lane : Fin w, cell fromLe vals (i + k * w + lane) =
      ∑ j ∈ Finset.range w, cell fromLe vals (i + (k * w + j)) := by
    intro k
    rw [Fin.sum_univ_eq_sum_range fun j => cell fromLe vals (i + k * w + j)]
    simp only [Nat.add_assoc]
  calc held (fun k : Fin 4 => loadu fromLe w vals (i + k * w))
      = ∑ k : Fin 4, ∑ j ∈ Finset.range w, cell fromLe vals (i + (k * w + j)) := Finset.sum_congr rfl fun k _ => hregister k
    _ = ∑ j ∈ Finset.range (4 * w), cell fromLe vals (i + j) := by
        rw [Fin.sum_univ_four, show 4 * w = w + w + w + w by omega, Finset.sum_range_add, Finset.sum_range_add,
          Finset.sum_range_add]
        simp only [Fin.val_zero, Fin.val_one, Fin.val_two, Nat.zero_mul, Nat.zero_add, Nat.one_mul,
          show ((3 : Fin 4) : ℕ) = 3 from rfl, Nat.two_mul, show 3 * w = w + w + w by omega]

/-- The accumulators hold the cells up to the position of the loop. -/
theorem simdLoop_sum {w n : ℕ} : ∀ (fuel i : ℕ) (acc : Fin 4 → Fin w → M), i ≤ n → held acc = total fromLe vals i →
    (simdLoop fromLe w vals n fuel i acc).1 ≤ n ∧
      held (simdLoop fromLe w vals n fuel i acc).2 = total fromLe vals (simdLoop fromLe w vals n fuel i acc).1 := by
  intro fuel
  induction fuel with
  | zero => exact fun i acc hi hacc => ⟨hi, hacc⟩
  | succ fuel ih =>
    intro i acc hi hacc
    rw [simdLoop]
    by_cases hroom : i + 4 * w ≤ n
    · rw [if_pos hroom]
      refine ih _ _ hroom ?_
      have hsplit : held (fun k => acc k + loadu fromLe w vals (i + k * w)) =
          held acc + held fun k : Fin 4 => loadu fromLe w vals (i + k * w) := by
        simp only [held, Pi.add_apply, Finset.sum_add_distrib]
      rw [hsplit, hacc, held_load, total, total, Finset.sum_range_add]
    · rw [if_neg hroom]
      exact ⟨hi, hacc⟩

theorem tailLoop_sum {n i : ℕ} (hi : i ≤ n) : tailLoop fromLe vals n i (total fromLe vals i) = total fromLe vals n := by
  obtain ⟨k, rfl⟩ := Nat.exists_eq_add_of_le hi
  rw [tailLoop, Nat.add_sub_cancel_left]
  induction k with
  | zero => rfl
  | succ k ih =>
    rw [List.range'_concat, List.foldl_append, ih (Nat.le_add_right i k), ← Nat.add_assoc, total, total, Finset.sum_range_succ]
    simp only [List.foldl_cons, List.foldl_nil, Nat.one_mul]

/-- A sum in registers visits each cell once. -/
theorem sumF64Simd_eq {w : ℕ} {hsum : (Fin w → M) → M} (hlanes : ∀ v, hsum v = ∑ lane, v lane) (n : ℕ) :
    sumF64Simd fromLe w hsum vals n = total fromLe vals n := by
  have hstart : held (fun (_ : Fin 4) (_ : Fin w) => (0 : M)) = total fromLe vals 0 := by
    simp [held, total]
  obtain ⟨hle, hheld⟩ := @simdLoop_sum M _ fromLe vals w n n 0 (fun _ _ => 0) (Nat.zero_le n) hstart
  have hregisters : ∀ acc : Fin 4 → Fin w → M, hsum (acc 0 + acc 1 + (acc 2 + acc 3)) = held acc := by
    intro acc
    rw [hlanes, held, Fin.sum_univ_four]
    simp only [Pi.add_apply, Finset.sum_add_distrib, add_assoc]
  rw [sumF64Simd]
  dsimp only
  rw [hregisters]
  refine Eq.trans ?_ (tailLoop_sum hle)
  exact congrArg _ hheld

/-- A cell that the values have. -/
theorem addCell_eq (hsmall : vals.length < 2 ^ 63) {i : ℕ} (hi : i * 8 + 8 ≤ vals.length) (sum : M) :
    addCell fromLe vals sum i = .ok (sum + cell fromLe vals i) := by
  rw [addCell, usizeMul_of (by omega), ok_bind, usizeAdd_of (by omega), ok_bind, getRange, if_pos ⟨by omega, hi⟩,
    Nat.add_sub_cancel_left, cell]

theorem sumF64Scalar_eq (hsmall : vals.length < 2 ^ 63) {n : ℕ} (hn : n * 8 ≤ vals.length) :
    sumF64Scalar fromLe vals n = .ok (total fromLe vals n) := by
  rw [sumF64Scalar]
  induction n with
  | zero => rfl
  | succ n ih =>
    rw [List.range_succ, List.foldlM_append, ih (by omega), ok_bind, List.foldlM_cons, addCell_eq hsmall (by omega), ok_bind,
      List.foldlM_nil, total, total, Finset.sum_range_succ]
    rfl

/-- The sparse sum of a column without absent cells. -/
theorem sumF64Sparse_eq {bm : Bytes} (hsmall : vals.length < 2 ^ 63) {n : ℕ} (hn : n * 8 ≤ vals.length)
    (hset : FirstBitsSet bm n) : sumF64Sparse fromLe vals bm n = .ok (total fromLe vals n) := by
  rw [sumF64Sparse]
  induction n with
  | zero => rfl
  | succ n ih =>
    obtain ⟨b, hb, hbit⟩ := hset n (Nat.lt_succ_self n)
    have hbitAt : (bitAt bm n : Opt Bool) = .ok true := by
      rw [bitAt, index, hb]
      exact congrArg _ hbit
    rw [List.range_succ, List.foldlM_append, ih (by omega) fun i hi => hset i (by omega), ok_bind, List.foldlM_cons, hbitAt,
      ok_bind, if_pos rfl, addCell_eq hsmall (by omega), ok_bind, List.foldlM_nil, total, total, Finset.sum_range_succ]
    rfl

theorem sumF64DenseLe_eq (hsmall : vals.length < 2 ^ 63) {n : ℕ} (hn : n * 8 ≤ vals.length) (simd : Simd) :
    sumF64DenseLe fromLe simd vals n = .ok (total fromLe vals n) := by
  cases simd with
  | avx2 => exact congrArg _ (sumF64Simd_eq (fun v => List.sum_ofFn) n)
  | neon => exact congrArg _ (sumF64Simd_eq (fun v => (Fin.sum_univ_two v).symm) n)
  | none => exact sumF64Scalar_eq hsmall hn

end

/-! ## The dense path -/

/-- The bitmap test says whether the first `n` bits are set, and where they are, every way to sum the dense values is
the sparse sum. -/
def DenseSumRight (bm : Bytes) (n : ℕ) : Prop :=
  ∃ dense, nullBitmapDense bm n = .ok dense ∧ (dense = true ↔ FirstBitsSet bm n) ∧
    (dense = true → ∀ (M : Type) [AddCommMonoid M] (fromLe : Bytes → M) (vals : Slice), n * 8 ≤ vals.bytes.length →
      ∀ simd, sumF64DenseLe fromLe simd vals.bytes n = sumF64Sparse fromLe vals.bytes bm n)

theorem dense_sum_iff (bm : Slice) (n : UInt64) : DenseSumRight bm.bytes n.toNat ↔ n.toNat + 7 < 2 ^ 64 := by
  constructor
  · rintro ⟨dense, hdense, -⟩
    by_contra hover
    have hzero : n.toNat ≠ 0 := by omega
    rw [nullBitmapDense, if_neg hzero, usizeAdd, if_neg hover] at hdense
    cases hdense
  · intro hn
    obtain ⟨dense, hdense, hset⟩ := @nullBitmapDense_eq bm.bytes n.toNat hn
    refine ⟨dense, hdense, hset, fun htrue M _ fromLe vals hvals simd => ?_⟩
    rw [sumF64DenseLe_eq vals.small hvals, sumF64Sparse_eq vals.small hvals (hset.mp htrue)]

/-- The sum of a column is the sparse sum, whatever path it takes. -/
theorem sumF64Column_eq {M : Type} [AddCommMonoid M] {fromLe : Bytes → M} (vals : Slice) {bm : Bytes} {n : ℕ}
    (hn : n + 7 < 2 ^ 64) (simd : Simd) :
    sumF64Column fromLe simd vals.bytes bm n = sumF64Sparse fromLe vals.bytes bm n := by
  have hsmall := vals.small
  rw [sumF64Column]
  by_cases hzero : n = 0
  · rw [if_pos hzero, hzero]
    rfl
  obtain ⟨dense, hdense, hset⟩ := @nullBitmapDense_eq bm n hn
  rw [if_neg hzero, hdense, ok_bind]
  by_cases hpath : (dense && decide (vals.bytes.length ≥ min (n * 8) (2 ^ 64 - 1))) = true
  · obtain ⟨htrue, hlen⟩ := Bool.and_eq_true_iff.mp hpath
    have hvals : n * 8 ≤ vals.bytes.length := by
      have := of_decide_eq_true hlen
      omega
    rw [if_pos hpath, sumF64DenseLe_eq hsmall hvals, sumF64Sparse_eq hsmall hvals (hset.mp htrue)]
  · rw [if_neg hpath]

/-- The test of an empty bitmap overflows. -/
theorem dense_sum_overflows : ¬ DenseSumRight [] (2 ^ 64 - 1) := by
  rintro ⟨dense, hdense, -⟩
  cases hdense

end ColReduce

end Nyxis

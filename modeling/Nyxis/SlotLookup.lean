import Nyxis.Decoder
import Nyxis.Lib.Ranks

/-!
# SlotLookup — finding a slot in an object

The mask of an object says which slots are present, its offset table has an entry for each of them, in
slot order.  `resolveSlot` walks the mask and takes the entry whose number is the rank of the slot.

* `resolveSlot_present`: a present slot is found through the entry at its rank.
* `resolveSlot_absent`: a slot that is not present is not found.
-/

namespace Nyxis

open Lib Lib.Outcome

/-- The number of present slots below `slot`. -/
def slotRank (p : ℕ → Bool) (slot : ℕ) : ℕ := (List.range slot).countP p

@[simp] theorem slotRank_zero (p : ℕ → Bool) : slotRank p 0 = 0 := rfl

theorem slotRank_succ (p : ℕ → Bool) (slot : ℕ) :
    slotRank p (slot + 1) = slotRank p slot + if p slot then 1 else 0 := by
  rw [slotRank, List.range_succ, List.countP_append, List.countP_singleton]
  rfl

/-- The rank of a slot in a mask: the number of present slots below it. -/
theorem slotRank_any {slots : List ℕ} (hnd : slots.Nodup) (s : ℕ) :
    slotRank (fun i => slots.any (· == i)) s = slots.countP (· < s) := by
  rw [slotRank, distinct_eq_rank_iff]
  exact hnd.filter _

theorem foldlM_one {ε α β : Type} (f : β → α → Outcome ε β) (b : β) (a : α) : [a].foldlM f b = f b a := by
  rw [List.foldlM_cons]
  exact bind_pure _

/-- The walk over the first `n` bits of the byte of the slots from `c` on. -/
theorem foldlM_maskBit (p : ℕ → Bool) (more : Bool) {c slot : ℕ} (hc : c ≤ slot) : ∀ n ≤ 7,
    (List.range n).foldlM (maskBit (byteOfBits fun i => if i = 7 then more else p (c + i)) slot)
        ⟨c, slotRank p c, false⟩ =
      if slot < c + n then if p slot then .ok ⟨c + n, slotRank p slot, true⟩ else none'
      else .ok ⟨c + n, slotRank p (c + n), false⟩
  | 0, _ => by
    rw [if_neg (by omega)]
    rfl
  | n + 1, hn => by
    have ih := foldlM_maskBit p more hc n (by omega)
    have hbit : (byteOfBits fun i => if i = 7 then more else p (c + i)).toNat.testBit n = p (c + n) := by
      rw [testBit_byteOfBits _ (by omega), if_neg (by omega)]
    rw [List.range_succ, List.foldlM_append, ih]
    by_cases hbefore : slot < c + n
    · rw [if_pos hbefore, if_pos (show slot < c + (n + 1) by omega)]
      by_cases hp : p slot = true
      · rw [if_pos hp, if_pos hp, ok_bind, foldlM_one, maskBit]
        dsimp only
        rw [if_neg (by omega), if_neg (by omega), Nat.add_assoc]
      · rw [if_neg hp, if_neg hp, err_bind]
    rw [if_neg hbefore, ok_bind, foldlM_one, maskBit]
    dsimp only
    by_cases hat : c + n = slot
    · subst hat
      rw [if_pos rfl, if_pos (show c + n < c + (n + 1) by omega), hbit, Nat.add_assoc]
    · rw [if_neg hat, if_neg (show ¬ slot < c + (n + 1) by omega), hbit, ← Nat.add_assoc, slotRank_succ]
      by_cases hp : p (c + n) = true
      · rw [if_pos ⟨by omega, hp⟩, if_pos hp]
      · rw [if_neg (fun h => hp h.2), if_neg hp]
        rfl

section Mask

variable {d : Bytes} {pos k : ℕ} {p : ℕ → Bool} (hat : At d pos (maskBytes k p)) (hd : d.length < 2 ^ 63)

include hat hd

/-- A walk that starts at byte `i` finds a present slot in that byte or behind it. -/
theorem maskLoop_present {slot : ℕ} (hslot : slot < 7 * k) (hp : p slot = true) :
    ∀ m i fuel, i + m = k → 7 * i ≤ slot → m ≤ fuel →
      maskLoop d slot fuel (pos + i) ⟨7 * i, slotRank p (7 * i), false⟩ =
        .ok (pos + (slot / 7 + 1), slotRank p slot,
          byteOfBits fun b => if b = 7 then decide (slot / 7 + 1 < k) else p (7 * (slot / 7) + b))
  | 0, _, _, hm, hi, _ => absurd hslot (by omega)
  | m + 1, i, 0, _, _, hfuel => absurd hfuel (by omega)
  | m + 1, i, fuel + 1, hm, hi, hfuel => by
    have hle := hat.le
    rw [maskBytes_length] at hle
    rw [maskLoop, get_maskBytes hat (by omega), ok_bind, checkedAdd_of (by omega), ok_bind,
      foldlM_maskBit p _ hi 7 (Nat.le_refl 7)]
    by_cases hhere : slot < 7 * i + 7
    · obtain rfl : slot / 7 = i := by omega
      rw [if_pos hhere, if_pos hp, ok_bind]
      dsimp only
      rw [Bool.true_and, moreMask_byteOfBits]
      by_cases hmore : slot / 7 + 1 < k
      · rw [if_neg (by simp [hmore]), if_pos ⟨hhere, rfl⟩, Nat.add_assoc]
      · rw [if_pos (by simp [hmore]), Nat.add_assoc]
    · rw [if_neg hhere, ok_bind]
      dsimp only
      rw [Bool.false_and, if_neg (by decide), if_neg (fun h => Bool.false_ne_true h.2), moreMask_byteOfBits,
        if_neg (by simp; omega), Nat.add_assoc]
      exact maskLoop_present hslot hp m (i + 1) fuel (by omega) (by omega) (by omega)

/-- A walk does not find a slot that is absent or behind the mask. -/
theorem maskLoop_absent {slot : ℕ} (hp : slot < 7 * k → p slot = false) :
    ∀ m i fuel, i + m = k → 0 < m → 7 * i ≤ slot →
      maskLoop d slot fuel (pos + i) ⟨7 * i, slotRank p (7 * i), false⟩ = none'
  | 0, _, _, _, hpos, _ => absurd hpos (Nat.lt_irrefl 0)
  | m + 1, i, 0, _, _, _ => rfl
  | m + 1, i, fuel + 1, hm, _, hi => by
    have hle := hat.le
    rw [maskBytes_length] at hle
    rw [maskLoop, get_maskBytes hat (by omega), ok_bind, checkedAdd_of (by omega), ok_bind,
      foldlM_maskBit p _ hi 7 (Nat.le_refl 7)]
    by_cases hhere : slot < 7 * i + 7
    · rw [if_pos hhere, if_neg (by rw [hp (by omega)]; decide), err_bind]
    · rw [if_neg hhere, ok_bind]
      dsimp only
      rw [Bool.false_and, if_neg (by decide), if_neg (fun h => Bool.false_ne_true h.2), moreMask_byteOfBits]
      by_cases hmore : i + 1 < k
      · rw [if_neg (by simp [hmore]), Nat.add_assoc]
        exact maskLoop_absent hp m (i + 1) fuel (by omega) (by omega) (by omega)
      · rw [if_pos (by simp [hmore])]

/-- Skipping from behind byte `i` of the mask ends behind the mask. -/
theorem skipMask_maskBytes : ∀ m i fuel (q : ℕ → Bool), i + 1 + m = k → m < fuel →
    skipMask d fuel (pos + (i + 1)) (byteOfBits fun b => if b = 7 then decide (i + 1 < k) else q b) =
      .ok (pos + k)
  | _, _, 0, _, _, hfuel => absurd hfuel (Nat.not_lt_zero _)
  | 0, i, fuel + 1, q, hm, _ => by
    obtain rfl : i + 1 = k := by omega
    rw [skipMask, moreMask_byteOfBits, if_neg (by simp)]
  | m + 1, i, fuel + 1, q, hm, hfuel => by
    have hle := hat.le
    rw [maskBytes_length] at hle
    rw [skipMask, moreMask_byteOfBits, if_pos (by simp; omega), get_maskBytes hat (by omega), ok_bind,
      checkedAdd_of (by omega), ok_bind]
    exact skipMask_maskBytes m (i + 1) fuel _ (by omega) (by omega)

end Mask

section Lookup

variable {d : Bytes} {off k slot : ℕ} {p : ℕ → Bool} (hat : At d (off + 8) (maskBytes k p))
  (hd : d.length < 2 ^ 63)

include hat hd

/-- A present slot is at the offset that the entry at its rank says. -/
theorem resolveSlot_present (hslot : slot < 7 * k) (hp : p slot = true) {rel : ℕ} (hrel : rel < 65536)
    (hentry : At d (off + 8 + k + slotRank p slot * 2) (leBytes 2 rel)) :
    resolveSlot d off slot = .ok (off + rel) := by
  have hle := hat.le
  have hele := hentry.le
  rw [maskBytes_length] at hle
  rw [leBytes_length] at hele
  have hread := getRange_at hentry
  have hloop := maskLoop_present hat hd hslot hp k 0 (d.length + 1) (by omega) (by omega) (by omega)
  have hskip := skipMask_maskBytes hat hd (k - (slot / 7 + 1)) (slot / 7) (d.length + 1)
    (fun b => p (7 * (slot / 7) + b)) (by omega) (by omega)
  rw [leBytes_length] at hread
  rw [resolveSlot, checkedAdd_of (by omega), ok_bind]
  rw [Nat.mul_zero, slotRank_zero, Nat.add_zero] at hloop
  rw [hloop, ok_bind]
  dsimp only
  rw [hskip, ok_bind, tableEntry, checkedMul_of (by omega), ok_bind, checkedAdd_of (by omega), ok_bind,
    checkedAdd_of (by omega), ok_bind, hread, ok_bind, leNat_leBytes (by omega), checkedAdd_of (by omega)]

theorem resolveSlot_absent (hk : 0 < k) (hp : slot < 7 * k → p slot = false) : resolveSlot d off slot = none' := by
  have hle := hat.le
  rw [maskBytes_length] at hle
  have hloop := maskLoop_absent hat hd hp k 0 (d.length + 1) (by omega) hk (by omega)
  rw [Nat.mul_zero, slotRank_zero, Nat.add_zero] at hloop
  rw [resolveSlot, checkedAdd_of (by omega), ok_bind, hloop, err_bind]

end Lookup

end Nyxis

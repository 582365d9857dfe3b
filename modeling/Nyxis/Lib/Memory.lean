import Mathlib.Data.List.Basic
import Nyxis.Lib.Bytes

/-!
# Lib.Memory — a memory of bytes with 32-bit addresses

A linear memory is a byte for each address; addresses wrap around.  `storeBytes` stores bytes one behind the other,
`Holds` says that they are there.

* `storeBytes_append`: stores one behind the other are one store.
* `storeBytes_apply`: what is at an address after a store.
* `copyBytes_eq`: a copy between regions that do not overlap stores the bytes that were at the source.
-/

namespace Nyxis.Lib

abbrev Memory := UInt32 → UInt8

namespace Memory

def store (m : Memory) (p : UInt32) (b : UInt8) : Memory := fun a => if a = p then b else m a

def storeBytes (m : Memory) (p : UInt32) : Bytes → Memory
  | [] => m
  | b :: bs => storeBytes (m.store p b) (p + 1) bs

/-- The bytes are in the memory at `p`. -/
def Holds (m : Memory) (p : UInt32) (bs : Bytes) : Prop := ∀ i b, bs[i]? = some b → m (p + .ofNat i) = b

/-- The address is none of the `n` addresses from `p` on. -/
def Outside (p : UInt32) (n : ℕ) (a : UInt32) : Prop := n ≤ (a - p).toNat

instance (p : UInt32) (n : ℕ) (a : UInt32) : Decidable (Outside p n a) := inferInstanceAs (Decidable (n ≤ (a - p).toNat))

/-- Bytes `f 0`, `f 1` and so on, stored in a loop. -/
def fillBytes (m : Memory) (p : UInt32) (f : ℕ → UInt8) (n : ℕ) : Memory :=
  (List.range n).foldl (fun m i => m.store (p + .ofNat i) (f i)) m

/-- Bytes copied one after the other. -/
def copyBytes (m : Memory) (dst src : UInt32) (n : ℕ) : Memory :=
  (List.range n).foldl (fun m i => m.store (dst + .ofNat i) (m (src + .ofNat i))) m

variable {m : Memory} {p : UInt32}

theorem ofNat_succ (n : ℕ) : UInt32.ofNat (n + 1) = UInt32.ofNat n + 1 := UInt32.ofNat_add n 1

theorem storeBytes_append (a b : Bytes) : m.storeBytes p (a ++ b) = (m.storeBytes p a).storeBytes (p + .ofNat a.length) b := by
  induction a generalizing m p with
  | nil => rw [List.nil_append, storeBytes, List.length_nil, show UInt32.ofNat 0 = 0 from rfl, UInt32.add_zero]
  | cons x a ih =>
    rw [List.cons_append, storeBytes, ih, storeBytes, List.length_cons, ofNat_succ, UInt32.add_comm (.ofNat a.length),
      UInt32.add_assoc]

/-- A store behind another one. -/
theorem storeBytes_next {q : UInt32} {a b : Bytes} (hq : q = p + .ofNat a.length) :
    (m.storeBytes p a).storeBytes q b = m.storeBytes p (a ++ b) := by
  rw [hq, storeBytes_append]

/-- What is at an address after a store of at most the whole memory. -/
theorem storeBytes_apply {bs : Bytes} (h : bs.length ≤ 2 ^ 32) (a : UInt32) :
    m.storeBytes p bs a = bs[(a - p).toNat]?.getD (m a) := by
  induction bs generalizing m p with
  | nil => rfl
  | cons b bs ih =>
    rw [List.length_cons] at h
    rw [storeBytes, ih (by omega), store]
    by_cases ha : a = p
    · subst ha
      have hlast : (a - (a + 1)).toNat = 2 ^ 32 - 1 := by
        have := a.toNat_lt
        rw [UInt32.toNat_sub, UInt32.toNat_add, show (1 : UInt32).toNat = 1 from rfl]
        omega
      rw [if_pos rfl, hlast, List.getElem?_eq_none (by omega), UInt32.sub_self]
      rfl
    · have hnext : (a - p).toNat = (a - (p + 1)).toNat + 1 := by
        have := a.toNat_lt
        have := p.toNat_lt
        have hne : a.toNat ≠ p.toNat := fun heq => ha (UInt32.toNat_inj.mp heq)
        rw [UInt32.toNat_sub, UInt32.toNat_sub, UInt32.toNat_add, show (1 : UInt32).toNat = 1 from rfl]
        omega
      rw [if_neg ha, hnext, List.getElem?_cons_succ]

theorem toNat_add_sub {n : ℕ} (h : n < 2 ^ 32) (p : UInt32) : (p + .ofNat n - p).toNat = n := by
  rw [UInt32.add_comm, UInt32.add_sub_cancel, UInt32.toNat_ofNat_of_lt' h]

theorem Outside.le {n k : ℕ} {a : UInt32} (h : Outside p n a) (hk : k ≤ n) : Outside p k a := le_trans hk h

/-- An address outside a region is outside its last part. -/
theorem Outside.shift {n k : ℕ} {a : UInt32} (h : Outside p (k + n) a) (hk : k < 2 ^ 32) : Outside (p + .ofNat k) n a := by
  have hdist : k + n ≤ (a - p).toNat := h
  have ha := a.toNat_lt
  have hp := p.toNat_lt
  rw [UInt32.toNat_sub] at hdist
  rw [Outside, UInt32.toNat_sub, UInt32.toNat_add, UInt32.toNat_ofNat_of_lt' hk]
  omega

/-- The bytes that were stored are there. -/
theorem holds_storeBytes {bs : Bytes} (h : bs.length ≤ 2 ^ 32) : (m.storeBytes p bs).Holds p bs := by
  intro i b hb
  obtain ⟨hi, -⟩ := List.getElem?_eq_some_iff.mp hb
  rw [storeBytes_apply h, toNat_add_sub (by omega), hb, Option.getD_some]

/-- A store changes no address outside. -/
theorem storeBytes_outside {bs : Bytes} {a : UInt32} (h : bs.length ≤ 2 ^ 32) (ha : Outside p bs.length a) :
    m.storeBytes p bs a = m a := by
  rw [storeBytes_apply h, List.getElem?_eq_none ha, Option.getD_none]

theorem Holds.storeBytes {q : UInt32} {bs cs : Bytes} (h : m.Holds q cs) (hlen : bs.length ≤ 2 ^ 32)
    (hout : ∀ i < cs.length, Outside p bs.length (q + .ofNat i)) : (m.storeBytes p bs).Holds q cs := by
  intro i b hb
  rw [storeBytes_outside hlen (hout i (List.getElem?_eq_some_iff.mp hb).1)]
  exact h i b hb

theorem holds_append {a b : Bytes} : m.Holds p (a ++ b) ↔ m.Holds p a ∧ m.Holds (p + .ofNat a.length) b := by
  constructor
  · intro h
    refine ⟨fun i x hx => h i x ?_, fun i x hx => ?_⟩
    · rw [List.getElem?_append_left (List.getElem?_eq_some_iff.mp hx).1]
      exact hx
    · rw [UInt32.add_assoc, ← UInt32.ofNat_add]
      refine h _ x ?_
      rw [List.getElem?_append_right (Nat.le_add_right _ _), Nat.add_sub_cancel_left]
      exact hx
  · rintro ⟨ha, hb⟩ i x hx
    by_cases hi : i < a.length
    · rw [List.getElem?_append_left hi] at hx
      exact ha i x hx
    · rw [List.getElem?_append_right (by omega)] at hx
      have h := hb _ x hx
      rwa [UInt32.add_assoc, ← UInt32.ofNat_add, Nat.add_sub_of_le (by omega)] at h

theorem fillBytes_eq (f : ℕ → UInt8) (n : ℕ) : m.fillBytes p f n = m.storeBytes p ((List.range n).map f) := by
  induction n with
  | zero => rfl
  | succ n ih =>
    have hfill : m.fillBytes p f (n + 1) = (m.fillBytes p f n).store (p + .ofNat n) (f n) := by
      rw [fillBytes, List.range_succ, List.foldl_append]
      rfl
    rw [hfill, ih, List.range_succ, List.map_append, storeBytes_append, List.length_map, List.length_range]
    rfl

/-- A copy between regions that do not overlap stores the bytes that were at the source. -/
theorem copyBytes_eq {src : UInt32} {bs : Bytes} (h : m.Holds src bs) (hlen : bs.length ≤ 2 ^ 32)
    (hout : ∀ i < bs.length, Outside p bs.length (src + .ofNat i)) :
    m.copyBytes p src bs.length = m.storeBytes p bs := by
  have hcopied : ∀ n ≤ bs.length, m.copyBytes p src n = m.storeBytes p (bs.take n) := by
    intro n
    induction n with
    | zero => exact fun _ => rfl
    | succ n ih =>
      intro hn
      have hcopy : m.copyBytes p src (n + 1) =
          (m.copyBytes p src n).store (p + .ofNat n) ((m.copyBytes p src n) (src + .ofNat n)) := by
        rw [copyBytes, List.range_succ, List.foldl_append]
        rfl
      obtain ⟨b, hb⟩ : ∃ b, bs[n]? = some b := ⟨_, List.getElem?_eq_getElem (show n < bs.length by omega)⟩
      have htake : (bs.take n).length = n := List.length_take_of_le (by omega)
      have hold : m.storeBytes p (bs.take n) (src + .ofNat n) = b := by
        rw [storeBytes_outside (by omega) (le_trans (by omega) (hout n (by omega)))]
        exact h n _ hb
      rw [hcopy, ih (by omega), hold, List.take_add_one, hb, storeBytes_append, htake]
      rfl
  rw [hcopied bs.length (Nat.le_refl _), List.take_length]

end Memory

end Nyxis.Lib

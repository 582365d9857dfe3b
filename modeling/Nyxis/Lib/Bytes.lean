import Mathlib.Tactic.Ring
import Mathlib.Tactic.NormNum
import Nyxis.Lib.Outcome

/-!
# Lib.Bytes — little-endian words and bytes at an offset

Byte strings are lists of `UInt8`.  `leBytes w n` are the `w` little-endian bytes of `n`, `leNat`
reads them back.  `At d off seg` says that the bytes `seg` stand at offset `off` of `d`; a layout
is a concatenation, and `At.append` splits it into its parts (`at_append`), so that a reader's
proof never mentions the bytes before or after the ones it reads.

The second half models the accesses of a Rust slice: `index` and `range` panic out of bounds,
`get` and `getRange` return `None`.  Each has one lemma reading from an `At`.
-/

namespace Nyxis.Lib

open Outcome

abbrev Bytes := List UInt8

/-! ## Little-endian words -/

/-- The `w` little-endian bytes of `n`; what does not fit is dropped. -/
def leBytes : ℕ → ℕ → Bytes
  | 0, _ => []
  | w + 1, n => UInt8.ofNat n :: leBytes w (n / 256)

/-- The number with the given little-endian bytes. -/
def leNat : Bytes → ℕ
  | [] => 0
  | b :: bs => b.toNat + 256 * leNat bs

@[simp] theorem leBytes_zero (n : ℕ) : leBytes 0 n = [] := rfl

@[simp] theorem leBytes_length (w n : ℕ) : (leBytes w n).length = w := by
  induction w generalizing n with
  | zero => rfl
  | succ w ih => simp [leBytes, ih]

theorem leNat_leBytes_mod (w n : ℕ) : leNat (leBytes w n) = n % 256 ^ w := by
  induction w generalizing n with
  | zero => simp [leBytes, leNat, Nat.mod_one]
  | succ w ih =>
    rw [leBytes, leNat, ih, UInt8.toNat_ofNat', pow_succ' 256 w, Nat.mod_mul]

theorem leNat_leBytes {w n : ℕ} (h : n < 256 ^ w) : leNat (leBytes w n) = n := by
  rw [leNat_leBytes_mod, Nat.mod_eq_of_lt h]

theorem leNat_lt (l : Bytes) : leNat l < 256 ^ l.length := by
  induction l with
  | nil => simp [leNat]
  | cons b bs ih =>
    have hb : b.toNat < 256 := b.toNat_lt
    rw [leNat, List.length_cons, pow_succ]
    omega

theorem leNat_append (a b : Bytes) : leNat (a ++ b) = leNat a + 256 ^ a.length * leNat b := by
  induction a with
  | nil => rw [List.nil_append, List.length_nil, pow_zero, Nat.one_mul, leNat, Nat.zero_add]
  | cons x a ih =>
    rw [List.cons_append, leNat, leNat, ih, List.length_cons, pow_succ]
    ring

theorem leBytes_leNat (l : Bytes) : leBytes l.length (leNat l) = l := by
  induction l with
  | nil => rfl
  | cons b bs ih =>
    have hb : b.toNat < 256 := b.toNat_lt
    rw [leNat, List.length_cons, leBytes]
    have hdiv : (b.toNat + 256 * leNat bs) / 256 = leNat bs := by omega
    have hmod : UInt8.ofNat (b.toNat + 256 * leNat bs) = b := by
      apply UInt8.toNat.inj
      rw [UInt8.toNat_ofNat']
      omega
    rw [hdiv, hmod, ih]

/-- Numbers that agree below `256 ^ w` have the same `w` bytes. -/
theorem leBytes_mod (w n : ℕ) : leBytes w (n % 256 ^ w) = leBytes w n := by
  induction w generalizing n with
  | zero => rfl
  | succ w ih =>
    rw [leBytes, leBytes]
    congr 1
    · apply UInt8.toNat.inj
      simp only [UInt8.toNat_ofNat']
      exact Nat.mod_mod_of_dvd n (Dvd.intro_left (256 ^ w) rfl)
    · rw [pow_succ' 256 w, Nat.mod_mul_right_div_self, ih]

theorem leBytes_take : ∀ {w k : ℕ} (n : ℕ), w ≤ k → (leBytes k n).take w = leBytes w n
  | 0, _, _, _ => rfl
  | w + 1, k + 1, n, h => by
    rw [leBytes, leBytes, List.take_succ_cons, leBytes_take _ (Nat.le_of_succ_le_succ h)]

theorem leBytes_add (a b n : ℕ) : leBytes (a + b) n = leBytes a n ++ leBytes b (n / 256 ^ a) := by
  induction a generalizing n with
  | zero => rw [Nat.zero_add, Nat.pow_zero, Nat.div_one, leBytes, List.nil_append]
  | succ a ih => rw [Nat.succ_add, leBytes, ih, leBytes, List.cons_append, Nat.div_div_eq_div_mul, ← Nat.pow_succ']

theorem leBytes_eq_map (w n : ℕ) : leBytes w n = (List.range w).map fun i => UInt8.ofNat (n / 2 ^ (i * 8)) := by
  induction w generalizing n with
  | zero => rfl
  | succ w ih =>
    rw [leBytes, ih, List.range_succ_eq_map, List.map_cons, List.map_map, Nat.zero_mul, Nat.pow_zero, Nat.div_one]
    refine congrArg _ (List.map_congr_left fun i _ => ?_)
    have hpow : 2 ^ ((i + 1) * 8) = 256 * 2 ^ (i * 8) := by
      rw [Nat.add_mul, Nat.pow_add, Nat.mul_comm]
    rw [Function.comp_apply, Nat.div_div_eq_div_mul, Nat.succ_eq_add_one, hpow]

/-! ## Bytes at an offset -/

/-- The bytes `seg` stand at offset `off` of `d`. -/
def At (d : Bytes) (off : ℕ) (seg : Bytes) : Prop :=
  ∃ pre post, d = pre ++ seg ++ post ∧ pre.length = off

theorem At.mk (pre seg post : Bytes) : At (pre ++ seg ++ post) pre.length seg :=
  ⟨pre, post, rfl, rfl⟩

theorem at_self (d : Bytes) : At d 0 d := ⟨[], [], by simp, rfl⟩

theorem At.le {d seg : Bytes} {off : ℕ} (h : At d off seg) : off + seg.length ≤ d.length := by
  obtain ⟨pre, post, rfl, rfl⟩ := h
  simp only [List.length_append]
  omega

theorem At.take_drop {d seg : Bytes} {off : ℕ} (h : At d off seg) :
    (d.drop off).take seg.length = seg := by
  obtain ⟨pre, post, rfl, rfl⟩ := h
  simp

theorem At.drop_eq {d seg : Bytes} {off : ℕ} (h : At d off seg) :
    ∃ rest, d.drop off = seg ++ rest := by
  obtain ⟨pre, post, rfl, rfl⟩ := h
  exact ⟨post, by simp⟩

/-- Two byte strings of one length at one offset are equal. -/
theorem At.unique {d s s' : Bytes} {off : ℕ} (h : At d off s) (h' : At d off s')
    (hl : s.length = s'.length) : s = s' := by
  rw [← h.take_drop, ← h'.take_drop, hl]

theorem at_of_take_drop {d seg : Bytes} {off n : ℕ} (hle : off + n ≤ d.length)
    (h : (d.drop off).take n = seg) : At d off seg := by
  refine ⟨d.take off, d.drop (off + n), ?_, by rw [List.length_take]; omega⟩
  rw [← h, ← List.drop_drop, List.append_assoc, List.take_append_drop, List.take_append_drop]

theorem at_append {d a b : Bytes} {off : ℕ} :
    At d off (a ++ b) ↔ At d off a ∧ At d (off + a.length) b := by
  constructor
  · rintro ⟨pre, post, rfl, rfl⟩
    exact ⟨⟨pre, b ++ post, by simp, rfl⟩, ⟨pre ++ a, post, by simp, by simp⟩⟩
  · rintro ⟨⟨pre, post, rfl, rfl⟩, ⟨pre', post', heq, hlen⟩⟩
    have hpre : pre ++ a = pre' := by
      have h1 := congrArg (List.take (pre.length + a.length)) heq
      rw [List.append_assoc pre' b post', List.take_left' hlen, List.take_left' (by simp)] at h1
      exact h1
    subst hpre
    rw [List.append_assoc (pre ++ a) b post'] at heq
    have hpost := List.append_cancel_left heq
    exact ⟨pre, post', by rw [hpost]; simp, rfl⟩

theorem at_cons {d b : Bytes} {x : UInt8} {off : ℕ} :
    At d off (x :: b) ↔ At d off [x] ∧ At d (off + 1) b := by
  have h : At d off ([x] ++ b) ↔ At d off [x] ∧ At d (off + 1) b := at_append
  simpa using h

/-- Bytes at an offset inside a segment are at the shifted offset. -/
theorem At.trans {d e seg : Bytes} {off off' : ℕ} (h : At d off e) (h' : At e off' seg) :
    At d (off + off') seg := by
  obtain ⟨pre, post, rfl, rfl⟩ := h
  obtain ⟨pre', post', rfl, rfl⟩ := h'
  exact ⟨pre ++ pre', post' ++ post, by simp, by simp⟩

/-- Bytes stay where they are when the string grows at its end. -/
theorem At.append_right {d seg : Bytes} {off : ℕ} (h : At d off seg) (e : Bytes) :
    At (d ++ e) off seg := by
  obtain ⟨pre, post, rfl, rfl⟩ := h
  exact ⟨pre, post ++ e, by simp, rfl⟩

theorem At.append_left {d seg : Bytes} {off : ℕ} (h : At d off seg) (e : Bytes) :
    At (e ++ d) (e.length + off) seg := by
  obtain ⟨pre, post, rfl, rfl⟩ := h
  exact ⟨e ++ pre, post, by simp, by simp⟩

/-- Bytes of a prefix that is long enough. -/
theorem At.of_prefix {d seg : Bytes} {off m : ℕ} (h : At d off seg) (hm : off + seg.length ≤ m) :
    At (d.take m) off seg := by
  have hle := h.le
  have hroom : off + seg.length ≤ (d.take m).length := by
    rw [List.length_take]
    omega
  refine at_of_take_drop hroom ?_
  rw [List.drop_take, List.take_take, Nat.min_eq_left (by omega), h.take_drop]

/-- What is left of a segment after dropping a prefix of it. -/
theorem At.drop {d seg : Bytes} {off : ℕ} (h : At d off seg) {k : ℕ} (hk : k ≤ seg.length) :
    At d (off + k) (seg.drop k) := by
  have hs : At d off (seg.take k ++ seg.drop k) := by rwa [List.take_append_drop]
  have := (at_append.mp hs).2
  rwa [List.length_take, Nat.min_eq_left hk] at this

theorem At.take {d seg : Bytes} {off : ℕ} (h : At d off seg) (k : ℕ) : At d off (seg.take k) := by
  have hs : At d off (seg.take k ++ seg.drop k) := by rwa [List.take_append_drop]
  exact (at_append.mp hs).1

/-- The image of the `i`-th element, behind the images of the elements before it. -/
theorem at_flatMap {α : Type} {f : α → Bytes} {x : α} :
    ∀ {l : List α} {i : ℕ}, l[i]? = some x → At (l.flatMap f) ((l.take i).flatMap f).length (f x)
  | [], _, h => by simp at h
  | a :: l, 0, h => by
    obtain rfl : a = x := by simpa using h
    simpa using (at_self (f a)).append_right (l.flatMap f)
  | a :: l, i + 1, h => by
    have ih := at_flatMap (f := f) (l := l) (i := i) (by simpa using h)
    simpa using ih.append_left (f a)

/-- Images of one length stand at its multiples. -/
theorem at_flatMap_const {α : Type} {f : α → Bytes} {w : ℕ} {l : List α} {i : ℕ} {x : α}
    (hw : ∀ a ∈ l, (f a).length = w) (h : l[i]? = some x) : At (l.flatMap f) (i * w) (f x) := by
  have hlen : ((l.take i).flatMap f).length = i * w := by
    have hi : i ≤ l.length := by
      have := (List.getElem?_eq_some_iff.mp h).1
      omega
    have hconst : (l.take i).map (fun a => (f a).length) = List.replicate i w := by
      rw [List.eq_replicate_iff]
      refine ⟨by simp [hi], fun b hb => ?_⟩
      obtain ⟨a, ha, rfl⟩ := List.mem_map.mp hb
      exact hw a (List.mem_of_mem_take ha)
    rw [List.length_flatMap, hconst, List.sum_replicate_nat]
  rw [← hlen]
  exact at_flatMap h

theorem length_flatMap_const {α : Type} {f : α → Bytes} {w : ℕ} {l : List α}
    (hw : ∀ a ∈ l, (f a).length = w) : (l.flatMap f).length = l.length * w := by
  induction l with
  | nil => simp
  | cons a l ih =>
    rw [List.flatMap_cons, List.length_append, hw a (by simp), ih fun b hb => hw b (by simp [hb]),
      List.length_cons, Nat.succ_mul, Nat.add_comm]

/-! ## Slice accesses -/

section Access

variable {ε : Type}

/-- `d[i]`. -/
def index (d : Bytes) (i : ℕ) : Outcome ε UInt8 :=
  match d[i]? with
  | some b => .ok b
  | none => .panic

/-- `d.get(i)`. -/
def get (d : Bytes) (i : ℕ) : Opt UInt8 := .ofOption d[i]?

/-- `d[a..b]`. -/
def range (d : Bytes) (a b : ℕ) : Outcome ε Bytes :=
  if a ≤ b ∧ b ≤ d.length then .ok ((d.drop a).take (b - a)) else .panic

/-- `d.get(a..b)`. -/
def getRange (d : Bytes) (a b : ℕ) : Opt Bytes :=
  if a ≤ b ∧ b ≤ d.length then .ok ((d.drop a).take (b - a)) else none'

/-- `uN::from_le_bytes(d[p..p + w])`, with `w` the bytes of the word. -/
def readLE (d : Bytes) (p w : ℕ) : Outcome ε ℕ := do
  let e ← usizeAdd p w
  let s ← range d p e
  .ok (leNat s)

/-- `uN::from_le_bytes(d.get(p..p + w)?)`. -/
def getLE (d : Bytes) (p w : ℕ) : Opt ℕ := do
  let e ← usizeAdd p w
  let s ← getRange d p e
  .ok (leNat s)

theorem index_at {d seg : Bytes} {off : ℕ} {b : UInt8} (h : At d off (b :: seg)) :
    (index d off : Outcome ε UInt8) = .ok b := by
  obtain ⟨pre, post, rfl, rfl⟩ := h
  simp [index]

theorem index_eq_ok {d : Bytes} {i : ℕ} {b : UInt8} : (index d i : Outcome ε UInt8) = .ok b ↔ d[i]? = some b := by
  rw [index]
  cases hget : d[i]? with
  | none => exact ⟨nofun, nofun⟩
  | some c => rw [Outcome.ok.injEq, Option.some.injEq]

theorem get_at {d seg : Bytes} {off : ℕ} {b : UInt8} (h : At d off (b :: seg)) :
    get d off = .ok b := by
  obtain ⟨pre, post, rfl, rfl⟩ := h
  simp [get]

theorem range_at {d seg : Bytes} {off : ℕ} (h : At d off seg) :
    (range d off (off + seg.length) : Outcome ε Bytes) = .ok seg := by
  rw [range, if_pos ⟨by omega, h.le⟩, Nat.add_sub_cancel_left, h.take_drop]

theorem getRange_at {d seg : Bytes} {off : ℕ} (h : At d off seg) :
    getRange d off (off + seg.length) = .ok seg := by
  rw [getRange, if_pos ⟨by omega, h.le⟩, Nat.add_sub_cancel_left, h.take_drop]

theorem range_of {d : Bytes} {a b : ℕ} (h : a ≤ b) (hb : b ≤ d.length) :
    (range d a b : Outcome ε Bytes) = .ok ((d.drop a).take (b - a)) := if_pos ⟨h, hb⟩

theorem readLE_below {d seg : Bytes} {off w : ℕ} (h : At d off seg) (hw : seg.length = w)
    (hoff : off + w < 2 ^ 64) : (readLE d off w : Outcome ε ℕ) = .ok (leNat seg) := by
  subst hw
  rw [readLE, usizeAdd_of hoff, ok_bind, range_at h]
  rfl

theorem readLE_at {d seg : Bytes} {off w : ℕ} (h : At d off seg) (hw : seg.length = w)
    (hd : d.length < 2 ^ 63) : (readLE d off w : Outcome ε ℕ) = .ok (leNat seg) := by
  have := h.le
  exact readLE_below h hw (by omega)

theorem getLE_at {d seg : Bytes} {off w : ℕ} (h : At d off seg) (hw : seg.length = w)
    (hd : d.length < 2 ^ 63) : getLE d off w = .ok (leNat seg) := by
  subst hw
  have := h.le
  rw [getLE, usizeAdd_of (by omega), ok_bind, getRange_at h]
  rfl

/-- A little-endian word that stands at an offset is read back. -/
theorem readLE_leBytes {d : Bytes} {off w n : ℕ} (h : At d off (leBytes w n)) (hn : n < 256 ^ w)
    (hd : d.length < 2 ^ 63) : (readLE d off w : Outcome ε ℕ) = .ok n := by
  rw [readLE_at h (leBytes_length w n) hd, leNat_leBytes hn]

theorem readLE_leBytes_mod {d : Bytes} {off w n : ℕ} (h : At d off (leBytes w n)) (hd : d.length < 2 ^ 63) :
    (readLE d off w : Outcome ε ℕ) = .ok (n % 256 ^ w) := by
  rw [← leBytes_mod] at h
  exact readLE_leBytes h (Nat.mod_lt _ (Nat.pow_pos (by decide))) hd

theorem getLE_leBytes {d : Bytes} {off w n : ℕ} (h : At d off (leBytes w n)) (hn : n < 256 ^ w)
    (hd : d.length < 2 ^ 63) : getLE d off w = .ok n := by
  rw [getLE_at h (leBytes_length w n) hd, leNat_leBytes hn]

end Access

/-! ## Words -/

/-- The `w` bytes at `off`, as a number. -/
def word (d : Bytes) (off w : ℕ) : ℕ := leNat ((d.drop off).take w)

theorem readLE_word {ε : Type} {d : Bytes} {off w : ℕ} (h : off + w ≤ d.length) (hd : d.length < 2 ^ 63) :
    (readLE d off w : Outcome ε ℕ) = .ok (word d off w) := by
  rw [readLE, usizeAdd_of (by omega), ok_bind, range_of (by omega) h, ok_bind, Nat.add_sub_cancel_left, word]

theorem getLE_word {d : Bytes} {off w : ℕ} (h : off + w ≤ d.length) (hd : d.length < 2 ^ 63) :
    getLE d off w = .ok (word d off w) := by
  rw [getLE, usizeAdd_of (by omega), ok_bind, getRange, if_pos ⟨by omega, h⟩, ok_bind, Nat.add_sub_cancel_left, word]

theorem readLE_eq_ok {ε : Type} {d : Bytes} {pos w n : ℕ} (h : (readLE d pos w : Outcome ε ℕ) = .ok n) :
    pos + w < 2 ^ 64 ∧ n = word d pos w ∧ pos + w ≤ d.length := by
  obtain ⟨stop, hstop, h⟩ := bind_eq_ok.mp h
  obtain ⟨bytes, hbytes, h⟩ := bind_eq_ok.mp h
  rw [usizeAdd] at hstop
  split at hstop
  · rename_i hsmall
    cases hstop
    rw [range] at hbytes
    split at hbytes
    · rename_i hle
      cases hbytes
      cases h
      rw [Nat.add_sub_cancel_left]
      exact ⟨hsmall, rfl, hle.2⟩
    · cases hbytes
  · cases hstop

theorem getLE_eq_ok {d : Bytes} {p w n : ℕ} (hd : d.length < 2 ^ 63) (hp : p + w < 2 ^ 64) :
    getLE d p w = .ok n ↔ p + w ≤ d.length ∧ word d p w = n := by
  by_cases hle : p + w ≤ d.length
  · rw [getLE_word hle hd, ok.injEq, and_iff_right hle]
  · rw [getLE, usizeAdd_of hp, ok_bind, getRange, if_neg fun h => hle h.2]
    exact iff_of_false (fun h => by cases h) fun h => hle h.1

theorem word_take {d : Bytes} {off w m : ℕ} (h : off + w ≤ m) : word (d.take m) off w = word d off w := by
  rw [word, word, List.drop_take, List.take_take, Nat.min_eq_left (by omega)]

theorem word_slice {d : Bytes} {p n off w : ℕ} (hw : off + w ≤ n) : word ((d.drop p).take n) off w = word d (p + off) w := by
  rw [word, List.drop_take, List.take_take, Nat.min_eq_left (by omega), List.drop_drop, word]

theorem word_at {d seg : Bytes} {off : ℕ} (h : At d off seg) : word d off seg.length = leNat seg := by
  rw [word, h.take_drop]

theorem word_leBytes {d : Bytes} {off w n : ℕ} (h : At d off (leBytes w n)) (hn : n < 256 ^ w) :
    word d off w = n := by
  have hword := word_at h
  rw [leBytes_length, leNat_leBytes hn] at hword
  exact hword

theorem word_lt (d : Bytes) (off w : ℕ) : word d off w < 256 ^ w :=
  Nat.lt_of_lt_of_le (leNat_lt _) (Nat.pow_le_pow_right (by decide) (List.length_take_le _ _))

theorem readLE_lt {ε : Type} {d : Bytes} {p w n : ℕ} (h : (readLE d p w : Outcome ε ℕ) = .ok n) : n < 256 ^ w := by
  obtain ⟨-, rfl, -⟩ := readLE_eq_ok h
  exact word_lt d p w

/-! ## Padding -/

/-- `k` zero bytes. -/
def zeros (k : ℕ) : Bytes := List.replicate k 0

@[simp] theorem zeros_length (k : ℕ) : (zeros k).length = k := by simp [zeros]

@[simp] theorem zeros_zero : zeros 0 = [] := rfl

theorem zeros_append (j k : ℕ) : zeros j ++ zeros k = zeros (j + k) := List.replicate_append_replicate

theorem zeros_drop (j k : ℕ) : (zeros k).drop j = zeros (k - j) := List.drop_replicate

/-- The number of bytes from `n` to the next multiple of `a`. -/
def padLen (a n : ℕ) : ℕ := (a - n % a) % a

/-- `while b.len() % a != 0 { b.push(0) }`. -/
def padTo (a : ℕ) (b : Bytes) : Bytes := b ++ zeros (padLen a b.length)

theorem padLen_dvd {a : ℕ} (ha : 0 < a) (n : ℕ) : a ∣ n + padLen a n := by
  unfold padLen
  have hn := Nat.mod_lt n ha
  rcases Nat.eq_zero_or_pos (n % a) with h0 | h0
  · rw [h0, Nat.sub_zero, Nat.mod_self, Nat.add_zero]
    exact Nat.dvd_of_mod_eq_zero h0
  · rw [Nat.mod_eq_of_lt (by omega)]
    have hd := Nat.div_add_mod n a
    exact ⟨n / a + 1, by rw [Nat.mul_add, Nat.mul_one]; omega⟩

theorem padLen_lt {a : ℕ} (ha : 0 < a) (n : ℕ) : padLen a n < a := Nat.mod_lt _ ha

theorem padLen_of_dvd {a n : ℕ} (h : a ∣ n) : padLen a n = 0 := by
  unfold padLen
  rw [Nat.mod_eq_zero_of_dvd h, Nat.sub_zero, Nat.mod_self]

@[simp] theorem padTo_length (a : ℕ) (b : Bytes) :
    (padTo a b).length = b.length + padLen a b.length := by simp [padTo]

theorem padTo_dvd {a : ℕ} (ha : 0 < a) (b : Bytes) : a ∣ (padTo a b).length := by
  rw [padTo_length]
  exact padLen_dvd ha _

end Nyxis.Lib

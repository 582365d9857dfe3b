import Nyxis.Decoder
import Nyxis.RowRecord

/-!
# DecodedCells — decoding the values of a v1.2 record

A value that does not start with the magic number of an object or of a list is decoded by the sigil of
its slot.  `Cell.Plain` is the condition on the cell of a row.

* `decodeValueAt_plain`: a plain cell is decoded to its value.
* `decodeValueAt_not_plain`: any other one is not.
-/

namespace Nyxis

open Lib Lib.Outcome
open NxsWriter (prefixed)

/-- Bytes that a length-prefixed value of `n` bytes takes. -/
def prefixedLen (n : ℕ) : ℕ := 4 + n + padLen 8 (4 + n)

/-- A number that is not the magic number of an object or of a list. -/
def NotMagic (n : ℕ) : Prop := n ≠ MAGIC_OBJ ∧ n ≠ MAGIC_LIST

instance (n : ℕ) : Decidable (NotMagic n) := inferInstanceAs (Decidable (_ ∧ _))

theorem prefixed_length (b : Bytes) : (prefixed b).length = prefixedLen b.length := NxsWriter.prefixed_size b

/-! ## Decoding a value -/

section Value

variable {d seg : Bytes} {p : ℕ} {sigil : UInt8}

theorem peekMagic_at (h : At d p seg) (h4 : 4 ≤ seg.length) (hsmall : d.length < 2 ^ 63) :
    peekMagic d p = .ok (leNat (seg.take 4)) := by
  have hle := h.le
  have hw : (seg.take 4).length = 4 := by rw [List.length_take]; omega
  rw [peekMagic, usizeAdd_of (by omega), ok_bind, if_pos (by omega), readLE_at (h.take 4) hw hsmall]

/-- A value that does not start with a magic number is decoded by its sigil. -/
theorem decodeValueAt_typed (h : At d p seg) (h4 : 4 ≤ seg.length) (hsmall : d.length < 2 ^ 63)
    (hlink : sigil ≠ SIGIL_LINK) (hmagic : NotMagic (leNat (seg.take 4))) :
    decodeValueAt d p sigil = decodeTyped d p sigil := by
  have hle := h.le
  rw [decodeValueAt, if_neg hlink, ensure_of (by omega), ok_bind, peekMagic_at h h4 hsmall, ok_bind,
    if_neg hmagic.1, if_neg hmagic.2]

theorem word8_i64 {v : Int64} (h : At d p (i64Bytes v)) (hsmall : d.length < 2 ^ 63) :
    word8 d p = .ok v.toUInt64.toNat := by
  have hle := h.le
  rw [i64Bytes_length] at hle
  rw [word8, usizeAdd_of (by omega), ok_bind, ensure_of (by omega), ok_bind,
    readLE_at h (i64Bytes_length v) hsmall, leNat_i64Bytes]

theorem leNat_take_i64 (v : Int64) : leNat ((i64Bytes v).take 4) = v.toUInt64.toNat % 2 ^ 32 := by
  have htake : (i64Bytes v).take 4 = leBytes 4 v.toUInt64.toNat := rfl
  rw [htake, leNat_leBytes_mod]
  rfl

theorem word8_f64 {v : F64} (h : At d p (f64Bytes v)) (hsmall : d.length < 2 ^ 63) :
    word8 d p = .ok v.bits.toNat := by
  have hle := h.le
  rw [f64Bytes_length] at hle
  rw [word8, usizeAdd_of (by omega), ok_bind, ensure_of (by omega), ok_bind,
    readLE_at h (f64Bytes_length v) hsmall, leNat_f64Bytes]

theorem leNat_take_f64 (v : F64) : leNat ((f64Bytes v).take 4) = v.bits.toNat % 2 ^ 32 := by
  have htake : (f64Bytes v).take 4 = leBytes 4 v.bits.toNat := rfl
  rw [htake, leNat_leBytes_mod]
  rfl

theorem leNat_take_prefixed (b : Bytes) : leNat ((prefixed b).take 4) = b.length % 2 ^ 32 := by
  have htake : (prefixed b).take 4 = leBytes 4 b.length := by
    rw [prefixed, padTo, List.append_assoc]
    exact List.take_left' (leBytes_length _ _)
  rw [htake, leNat_leBytes_mod]
  rfl

theorem decodeValueAt_int {v : Int64} (h : At d p (i64Bytes v)) (hsmall : d.length < 2 ^ 63)
    (hmagic : NotMagic (v.toUInt64.toNat % 2 ^ 32)) :
    decodeValueAt d p SIGIL_INT = .ok (.int v) := by
  rw [decodeValueAt_typed h (by simp) hsmall (by decide) (by rwa [leNat_take_i64]), decodeTyped,
    if_neg (by decide), if_pos rfl, word8_i64 h hsmall, ok_bind, i64Of_toNat]

theorem decodeValueAt_time {v : Int64} (h : At d p (i64Bytes v)) (hsmall : d.length < 2 ^ 63)
    (hmagic : NotMagic (v.toUInt64.toNat % 2 ^ 32)) :
    decodeValueAt d p SIGIL_TIME = .ok (.time v) := by
  rw [decodeValueAt_typed h (by simp) hsmall (by decide) (by rwa [leNat_take_i64]), decodeTyped,
    if_neg (by decide), if_neg (by decide), if_neg (by decide), if_neg (by decide), if_neg (by decide),
    if_pos rfl, word8_i64 h hsmall, ok_bind, i64Of_toNat]

theorem decodeValueAt_null (h : At d p (zeros 8)) (hsmall : d.length < 2 ^ 63) :
    decodeValueAt d p SIGIL_NULL = .ok .null := by
  rw [decodeValueAt_typed h (by simp) hsmall (by decide) (by decide), decodeTyped, if_pos rfl]

/-- The parts of a length-prefixed value that is short enough for its prefix. -/
theorem at_prefixed {b : Bytes} (h : At d p (prefixed b)) (hsmall : d.length < 2 ^ 63)
    (hb : b.length < 2 ^ 32) :
    prefixLen d p = .ok b.length ∧ At d (p + 4) b ∧ p + 4 + b.length ≤ d.length := by
  rw [prefixed, padTo, at_append, at_append, leBytes_length] at h
  obtain ⟨⟨hlen, hbytes⟩, -⟩ := h
  have hle := hbytes.le
  refine ⟨?_, hbytes, hle⟩
  rw [prefixLen, usizeAdd_of (by omega), ok_bind, ensure_of (by omega), ok_bind,
    readLE_leBytes hlen hb hsmall]

theorem decodeValueAt_float {v : F64} (h : At d p (f64Bytes v)) (hsmall : d.length < 2 ^ 63)
    (hmagic : NotMagic (v.bits.toNat % 2 ^ 32)) :
    decodeValueAt d p SIGIL_FLOAT = .ok (.float v) := by
  rw [decodeValueAt_typed h (by simp) hsmall (by decide) (by rwa [leNat_take_f64]), decodeTyped,
    if_neg (by decide), if_neg (by decide), if_pos rfl, word8_f64 h hsmall, ok_bind, f64Of_toNat]

theorem decodeValueAt_bool {v : Bool} (h : At d p ((if v then 1 else 0) :: zeros 7))
    (hsmall : d.length < 2 ^ 63) : decodeValueAt d p SIGIL_BOOL = .ok (.bool v) := by
  rw [decodeValueAt_typed h (by simp) hsmall (by decide) (by cases v <;> decide), decodeTyped,
    if_neg (by decide), if_neg (by decide), if_neg (by decide), if_pos rfl, index_at h, ok_bind]
  cases v <;> rfl

/-- Text of up to a megabyte is decoded as text. -/
theorem decodeValueAt_str {s : String} (h : At d p (prefixed (utf8 s))) (hsmall : d.length < 2 ^ 63)
    (hlen : (utf8 s).length ≤ 1024 * 1024) : decodeValueAt d p SIGIL_STR = .ok (.str s) := by
  obtain ⟨hread, hat, hle⟩ := at_prefixed h hsmall (by omega)
  have hmagic : NotMagic (leNat ((prefixed (utf8 s)).take 4)) := by
    rw [leNat_take_prefixed, Nat.mod_eq_of_lt (by omega)]
    refine ⟨?_, ?_⟩ <;> intro he <;> rw [he] at hlen <;> exact absurd hlen (by decide)
  have h4 : 4 ≤ (prefixed (utf8 s)).length := by
    rw [prefixed_length, prefixedLen]
    omega
  rw [decodeValueAt_typed h h4 hsmall (by decide) hmagic, decodeTyped, if_neg (by decide),
    if_neg (by decide), if_neg (by decide), if_neg (by decide), if_pos rfl, hread, ok_bind,
    usizeAdd_of (by omega), ok_bind, usizeAdd_of (by omega), ok_bind, if_neg (by omega), range_at hat, ok_bind, fromUtf8Lossy_utf8]

theorem decodeValueAt_binary {b : Bytes} (h : At d p (prefixed b)) (hsmall : d.length < 2 ^ 63)
    (hb : b.length < 2 ^ 32) (hmagic : NotMagic b.length) :
    decodeValueAt d p SIGIL_BINARY = .ok (.binary b) := by
  obtain ⟨hread, hat, hle⟩ := at_prefixed h hsmall hb
  have h4 : 4 ≤ (prefixed b).length := by
    rw [prefixed_length, prefixedLen]
    omega
  rw [decodeValueAt_typed h h4 hsmall (by decide)
      (by rwa [leNat_take_prefixed, Nat.mod_eq_of_lt hb]), decodeTyped, if_neg (by decide),
    if_neg (by decide), if_neg (by decide), if_neg (by decide), if_neg (by decide), if_neg (by decide),
    if_pos rfl, hread, ok_bind, usizeAdd_of (by omega), ok_bind, usizeAdd_of (by omega), ok_bind,
    ensure_of (by omega), ok_bind, range_at hat, ok_bind]

/-- What starts with the magic number of an object is left as it is, up to eight bytes of it. -/
theorem decodeValueAt_magic_obj (h : At d p seg) (h4 : 4 ≤ seg.length) (hsmall : d.length < 2 ^ 63)
    (hlink : sigil ≠ SIGIL_LINK) (hmagic : leNat (seg.take 4) = MAGIC_OBJ) {v : DecodedValue}
    (hv : decodeValueAt d p sigil = .ok v) : ∃ b, b.length ≤ 8 ∧ v = .raw b := by
  have hle := h.le
  rw [decodeValueAt, if_neg hlink, ensure_of (by omega), ok_bind, peekMagic_at h h4 hsmall, ok_bind,
    if_pos hmagic, usizeSub_of (by omega), ok_bind, usizeAdd_of (by omega), ok_bind,
    range_of (by omega) (by omega), ok_bind] at hv
  cases hv
  refine ⟨_, ?_, rfl⟩
  rw [List.length_take]
  omega

/-- What starts with the magic number of a list is decoded as a list. -/
theorem decodeValueAt_magic_list (h : At d p seg) (h4 : 4 ≤ seg.length) (hsmall : d.length < 2 ^ 63)
    (hlink : sigil ≠ SIGIL_LINK) (hmagic : leNat (seg.take 4) = MAGIC_LIST) {v : DecodedValue}
    (hv : decodeValueAt d p sigil = .ok v) : ∃ items, v = .list items := by
  have hle := h.le
  rw [decodeValueAt, if_neg hlink, ensure_of (by omega), ok_bind, peekMagic_at h h4 hsmall, ok_bind,
    if_neg (by rw [hmagic]; decide), if_pos hmagic, decodeList] at hv
  obtain ⟨_, -, hv⟩ := bind_eq_ok.mp hv
  obtain ⟨_, -, hv⟩ := bind_eq_ok.mp hv
  obtain ⟨_, -, hv⟩ := bind_eq_ok.mp hv
  obtain ⟨_, -, hv⟩ := bind_eq_ok.mp hv
  obtain ⟨_, -, hv⟩ := bind_eq_ok.mp hv
  obtain ⟨_, -, hv⟩ := bind_eq_ok.mp hv
  obtain ⟨_, -, hv⟩ := bind_eq_ok.mp hv
  obtain ⟨_, -, hv⟩ := bind_eq_ok.mp hv
  obtain ⟨_, -, hv⟩ := bind_eq_ok.mp hv
  obtain ⟨items, -, hv⟩ := bind_eq_ok.mp hv
  cases hv
  exact ⟨items, rfl⟩

/-- However many links are followed, another one is expected. -/
theorem decodeLink_not_ok {d : Bytes} {v : DecodedValue} : ∀ stack depth offset, decodeLink d stack depth offset ≠ .ok v := by
  intro stack
  induction stack with
  | zero =>
    intro depth offset h
    cases h
  | succ stack ih =>
    intro depth offset h
    rw [decodeLink] at h
    obtain ⟨target, -, h⟩ := bind_eq_ok.mp h
    exact ih _ _ h

theorem decodeValueAt_link_not_ok {d : Bytes} {p : ℕ} {v : DecodedValue} : decodeValueAt d p SIGIL_LINK ≠ .ok v := by
  rw [decodeValueAt, if_pos rfl]
  exact decodeLink_not_ok _ _ _

/-- Longer text is decoded as an integer. -/
theorem decodeTyped_long_str {s : String} (h : At d p (prefixed (utf8 s))) (hsmall : d.length < 2 ^ 63)
    (hshort : (utf8 s).length < 2 ^ 32) (hlong : 1024 * 1024 < (utf8 s).length) {v : DecodedValue}
    (hv : decodeTyped d p SIGIL_STR = .ok v) : ∃ n, v = .int n := by
  obtain ⟨hread, -, hle⟩ := at_prefixed h hsmall hshort
  rw [decodeTyped, if_neg (by decide), if_neg (by decide), if_neg (by decide), if_neg (by decide), if_pos rfl,
    hread, ok_bind, usizeAdd_of (by omega), ok_bind, usizeAdd_of (by omega), ok_bind, if_pos (Or.inl hlong),
    decodeUntyped, usizeAdd_of (by omega), ok_bind, if_pos (by omega)] at hv
  obtain ⟨n, -, hv⟩ := bind_eq_ok.mp hv
  cases hv
  exact ⟨_, rfl⟩

end Value

/-! ## Cells -/

/-- A cell whose value is decoded by its sigil. -/
def Cell.Plain : Cell → Prop
  | .i64 v | .time v => NotMagic (v.toUInt64.toNat % 2 ^ 32)
  | .f64 v => NotMagic (v.bits.toNat % 2 ^ 32)
  | .str s => (utf8 s).length ≤ 1024 * 1024
  | _ => True

instance : DecidablePred Cell.Plain := fun c => by
  cases c <;> unfold Cell.Plain <;> infer_instance

/-- The decoded value of a cell that has a value in a row file. -/
def Cell.decoded : Cell → DecodedValue
  | .i64 v => .int v
  | .f64 v => .float v
  | .bool v => .bool v
  | .time v => .time v
  | .str s => .str s
  | .binary b => .binary b
  | .absent | .null => .null

section Cells

variable {d b : Bytes} {p : ℕ} {c : Cell} (hb : c.rowBytes = some b) (h : At d p b) (hsmall : d.length < 2 ^ 63)

include hb h hsmall

theorem decodeValueAt_plain (hplain : c.Plain) : decodeValueAt d p c.sigil = .ok c.decoded := by
  cases c with
  | absent | binary => cases hb
  | null =>
    cases hb
    exact decodeValueAt_null h hsmall
  | i64 v =>
    cases hb
    exact decodeValueAt_int h hsmall hplain
  | f64 v =>
    cases hb
    exact decodeValueAt_float h hsmall hplain
  | bool v =>
    cases hb
    exact decodeValueAt_bool h hsmall
  | time v =>
    cases hb
    exact decodeValueAt_time h hsmall hplain
  | str s =>
    cases hb
    exact decodeValueAt_str h hsmall hplain

/-- The bytes of a cell, where they start with one of the magic numbers. -/
theorem decodeValueAt_magic (h4 : 4 ≤ b.length) (hmagic : ¬ NotMagic (leNat (b.take 4))) {v : DecodedValue}
    (hv : decodeValueAt d p c.sigil = .ok v) : (∃ b, b.length ≤ 8 ∧ v = .raw b) ∨ ∃ items, v = .list items := by
  have hlink : c.sigil ≠ SIGIL_LINK := by cases c <;> simp [Cell.sigil] <;> decide
  by_cases hobj : leNat (b.take 4) = MAGIC_OBJ
  · exact Or.inl (decodeValueAt_magic_obj h h4 hsmall hlink hobj hv)
  · have hlist : leNat (b.take 4) = MAGIC_LIST := by
      by_contra hne
      exact hmagic ⟨hobj, hne⟩
    exact Or.inr (decodeValueAt_magic_list h h4 hsmall hlink hlist hv)

/-- A cell that is not plain is decoded to raw bytes or a list, and text also to an integer. -/
theorem decodeValueAt_not_plain (hshort : ∀ s, c = .str s → (utf8 s).length < 2 ^ 32) (hplain : ¬ c.Plain)
    {v : DecodedValue} (hv : decodeValueAt d p c.sigil = .ok v) :
    (∃ b, b.length ≤ 8 ∧ v = .raw b) ∨ (∃ items, v = .list items) ∨ ∃ s n, c = .str s ∧ v = .int n := by
  have hcast : ∀ {v : DecodedValue}, ((∃ b, b.length ≤ 8 ∧ v = .raw b) ∨ ∃ items, v = .list items) →
      (∃ b, b.length ≤ 8 ∧ v = .raw b) ∨ (∃ items, v = .list items) ∨ ∃ s n, c = .str s ∧ v = .int n := by
    rintro v (hraw | hlist)
    · exact Or.inl hraw
    · exact Or.inr (Or.inl hlist)
  cases c with
  | absent | null | bool | binary => exact absurd trivial hplain
  | i64 w | time w =>
    cases hb
    refine hcast (decodeValueAt_magic rfl h hsmall (by simp) ?_ hv)
    rwa [leNat_take_i64]
  | f64 w =>
    cases hb
    refine hcast (decodeValueAt_magic rfl h hsmall (by simp) ?_ hv)
    rwa [leNat_take_f64]
  | str s =>
    cases hb
    have h4 : 4 ≤ (prefixed (utf8 s)).length := by
      rw [prefixed_length, prefixedLen]
      omega
    by_cases hmagic : NotMagic (leNat ((prefixed (utf8 s)).take 4))
    · rw [Cell.sigil, decodeValueAt_typed h h4 hsmall (by decide) hmagic] at hv
      obtain ⟨n, rfl⟩ := decodeTyped_long_str h hsmall (hshort s rfl) (Nat.not_le.mp hplain) hv
      exact Or.inr (Or.inr ⟨s, n, rfl, rfl⟩)
    · exact hcast (decodeValueAt_magic rfl h hsmall h4 hmagic hv)

end Cells

end Nyxis

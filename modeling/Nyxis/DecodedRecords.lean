import Nyxis.CallRecords
import Nyxis.DecodedCells

/-!
# DecodedRecords — decoding the records of a writer

`decode_record_at` finds the type of a value out from the sigil of its slot, and from the value itself: it looks for the
magic numbers of objects and lists in its first four bytes, and for a length of text that is too long to be one.

* `decodeValueAt_arg`: which values are decoded as they were written.
* `decodeObject_filled`: the fields of an object, slot by slot.
* `record_decoded_iff`: which records are.
-/

namespace Nyxis

open Lib Lib.Outcome
open NxsWriter (prefixed)

/-! ## Text -/

theorem utf8_append (s t : String) : utf8 (s ++ t) = utf8 s ++ utf8 t := by
  simp [utf8, String.toByteArray_append, ByteArray.data_append]

theorem utf8Prefix_pos (b : UInt8) (rest : Bytes) : 0 < (utf8Prefix b rest).length := by
  unfold utf8Prefix
  dsimp only
  split
  · exact Nat.one_pos
  · split
    · exact Nat.succ_pos _
    · exact Nat.one_pos

theorem utf8Prefix_le (b : UInt8) (rest : Bytes) : (utf8Prefix b rest).length ≤ rest.length + 1 := by
  unfold utf8Prefix
  dsimp only
  split
  · exact Nat.succ_le_succ (Nat.zero_le _)
  · rename_i c more htake
    have hlen := congrArg List.length htake
    rw [List.length_take, List.length_cons] at hlen
    split
    · have hle := (List.takeWhile_sublist (l := more) fun x => decide (0x80 ≤ x ∧ x ≤ 0xBF)).length_le
      rw [List.length_cons, List.length_cons]
      omega
    · exact Nat.succ_le_succ (Nat.zero_le _)

/-- A byte becomes at most the three bytes of U+FFFD. -/
theorem lossyLoop_length : ∀ (fuel : ℕ) (l : Bytes), (utf8 (lossyLoop fuel l)).length ≤ 3 * l.length
  | 0, [] | _ + 1, [] => Nat.le_refl 0
  | 0, _ :: _ => Nat.zero_le _
  | fuel + 1, b :: rest => by
    have ih := lossyLoop_length fuel ((b :: rest).drop (utf8Prefix b rest).length)
    have hpos := utf8Prefix_pos b rest
    have hle := utf8Prefix_le b rest
    rw [List.length_drop, List.length_cons] at ih
    rw [lossyLoop, utf8_append, List.length_append, List.length_cons]
    have hsum : 3 * (utf8Prefix b rest).length + 3 * (rest.length + 1 - (utf8Prefix b rest).length) ≤ 3 * (rest.length + 1) := by omega
    refine (Nat.add_le_add ?_ ih).trans hsum
    split
    · rename_i s hs
      rw [utf8_fromUtf8 hs]
      omega
    · have hthree : (utf8 "\uFFFD").length = 3 := by decide
      omega

theorem fromUtf8Lossy_length (l : Bytes) : (utf8 (fromUtf8Lossy l)).length ≤ 3 * l.length := by
  rw [fromUtf8Lossy]
  split
  · rename_i s hs
    rw [utf8_fromUtf8 hs]
    omega
  · exact lossyLoop_length _ l

/-! ## Values -/

/-- The sigils under which a value of a type is decoded. -/
def OfSigil (sigil : UInt8) : DecodedValue → Prop
  | .null => sigil = SIGIL_NULL
  | .float _ => sigil = SIGIL_FLOAT
  | .bool _ => sigil = SIGIL_BOOL
  | .str _ => sigil = SIGIL_STR
  | .time _ => sigil = SIGIL_TIME
  | .binary _ => sigil = SIGIL_BINARY
  | .int _ => sigil ≠ SIGIL_NULL ∧ sigil ≠ SIGIL_FLOAT ∧ sigil ≠ SIGIL_BOOL ∧ sigil ≠ SIGIL_TIME ∧ sigil ≠ SIGIL_BINARY
  | .raw _ => True
  | .list _ => False

section Value

variable {d seg : Bytes} {p : ℕ} {sigil : UInt8} {v : DecodedValue}

theorem decodeUntyped_ofSigil (h : decodeUntyped d p = .ok v) : (∃ n, v = .int n) ∨ ∃ b, v = .raw b := by
  obtain ⟨stop, -, h⟩ := bind_eq_ok.mp h
  split at h
  · obtain ⟨n, -, h⟩ := bind_eq_ok.mp h
    cases h
    exact .inl ⟨_, rfl⟩
  · obtain ⟨b, -, h⟩ := bind_eq_ok.mp h
    cases h
    exact .inr ⟨b, rfl⟩

theorem decodeTyped_ofSigil (h : decodeTyped d p sigil = .ok v) : OfSigil sigil v := by
  unfold decodeTyped at h
  by_cases hnull : sigil = SIGIL_NULL
  · rw [if_pos hnull] at h
    cases h
    exact hnull
  rw [if_neg hnull] at h
  by_cases hint : sigil = SIGIL_INT
  · rw [if_pos hint] at h
    obtain ⟨n, -, h⟩ := bind_eq_ok.mp h
    cases h
    subst hint
    exact ⟨by decide, by decide, by decide, by decide, by decide⟩
  rw [if_neg hint] at h
  by_cases hfloat : sigil = SIGIL_FLOAT
  · rw [if_pos hfloat] at h
    obtain ⟨n, -, h⟩ := bind_eq_ok.mp h
    cases h
    exact hfloat
  rw [if_neg hfloat] at h
  by_cases hbool : sigil = SIGIL_BOOL
  · rw [if_pos hbool] at h
    obtain ⟨b, -, h⟩ := bind_eq_ok.mp h
    cases h
    exact hbool
  rw [if_neg hbool] at h
  by_cases hstr : sigil = SIGIL_STR
  · rw [if_pos hstr] at h
    obtain ⟨len, -, h⟩ := bind_eq_ok.mp h
    obtain ⟨start, -, h⟩ := bind_eq_ok.mp h
    obtain ⟨stop, -, h⟩ := bind_eq_ok.mp h
    subst hstr
    split at h
    · rcases decodeUntyped_ofSigil h with ⟨n, rfl⟩ | ⟨b, rfl⟩
      · exact ⟨by decide, by decide, by decide, by decide, by decide⟩
      · trivial
    · obtain ⟨b, -, h⟩ := bind_eq_ok.mp h
      cases h
      rfl
  rw [if_neg hstr] at h
  by_cases htime : sigil = SIGIL_TIME
  · rw [if_pos htime] at h
    obtain ⟨n, -, h⟩ := bind_eq_ok.mp h
    cases h
    exact htime
  rw [if_neg htime] at h
  by_cases hbinary : sigil = SIGIL_BINARY
  · rw [if_pos hbinary] at h
    obtain ⟨len, -, h⟩ := bind_eq_ok.mp h
    obtain ⟨start, -, h⟩ := bind_eq_ok.mp h
    obtain ⟨stop, -, h⟩ := bind_eq_ok.mp h
    obtain ⟨_, -, h⟩ := bind_eq_ok.mp h
    obtain ⟨b, -, h⟩ := bind_eq_ok.mp h
    cases h
    exact hbinary
  rw [if_neg hbinary] at h
  rcases decodeUntyped_ofSigil h with ⟨n, rfl⟩ | ⟨b, rfl⟩
  · exact ⟨hnull, hfloat, hbool, htime, hbinary⟩
  · trivial

/-- A value other than bytes and lists is decoded by the sigil, and does not start with a magic number. -/
theorem decodeValueAt_iff (h : At d p seg) (h4 : 4 ≤ seg.length) (hsmall : d.length < 2 ^ 63) (hraw : ∀ b, v ≠ .raw b)
    (hlist : ∀ items, v ≠ .list items) :
    decodeValueAt d p sigil = .ok v ↔ sigil ≠ SIGIL_LINK ∧ NotMagic (leNat (seg.take 4)) ∧ decodeTyped d p sigil = .ok v := by
  constructor
  · intro hv
    have hlink : sigil ≠ SIGIL_LINK := fun hlink => decodeValueAt_link_not_ok (hlink ▸ hv)
    have hmagic : NotMagic (leNat (seg.take 4)) := by
      refine ⟨fun hobj => ?_, fun hl => ?_⟩
      · obtain ⟨b, -, rfl⟩ := decodeValueAt_magic_obj h h4 hsmall hlink hobj hv
        exact hraw b rfl
      · obtain ⟨items, rfl⟩ := decodeValueAt_magic_list h h4 hsmall hlink hl hv
        exact hlist items rfl
    rw [decodeValueAt_typed h h4 hsmall hlink hmagic] at hv
    exact ⟨hlink, hmagic, hv⟩
  · rintro ⟨hlink, hmagic, hv⟩
    rw [decodeValueAt_typed h h4 hsmall hlink hmagic, hv]

end Value

/-- A value of one of the six scalar types. -/
def Arg.Scalar : Arg → Prop
  | .null | .listI64 _ | .listF64 _ => False
  | _ => True

instance : DecidablePred Arg.Scalar := fun x => by
  cases x <;> unfold Arg.Scalar <;> infer_instance

/-- A value that is decoded as it was written from a slot with this sigil, with `room` bytes behind its first four.  In a slot of text
an integer is told from text by a length that is out of range. -/
def Arg.KeptBy (sigil : UInt8) (room : ℕ) : Arg → Prop
  | .i64 v => NotMagic (v.toUInt64.toNat % 2 ^ 32) ∧
    sigil ∉ [SIGIL_LINK, SIGIL_NULL, SIGIL_FLOAT, SIGIL_BOOL, SIGIL_TIME, SIGIL_BINARY] ∧
    (sigil = SIGIL_STR → 1024 * 1024 < v.toUInt64.toNat % 2 ^ 32 ∨ room < v.toUInt64.toNat % 2 ^ 32)
  | .f64 v => NotMagic (v.bits.toNat % 2 ^ 32) ∧ sigil = SIGIL_FLOAT
  | .bool _ => sigil = SIGIL_BOOL
  | .time v => NotMagic (v.toUInt64.toNat % 2 ^ 32) ∧ sigil = SIGIL_TIME
  | .str s => (utf8 s).length ≤ 1024 * 1024 ∧ sigil = SIGIL_STR
  | .bytes b => (NotMagic b.length ∧ b.length < 2 ^ 32) ∧ sigil = SIGIL_BINARY
  | _ => False

instance (sigil : UInt8) (room : ℕ) : DecidablePred (Arg.KeptBy sigil room) := fun x => by
  cases x <;> unfold Arg.KeptBy <;> infer_instance

section Args

variable {d : Bytes} {p : ℕ} {sigil : UInt8}

theorem decodeUntyped_i64 {v : Int64} (h : At d p (i64Bytes v)) (hsmall : d.length < 2 ^ 63) : decodeUntyped d p = .ok (.int v) := by
  have hle := h.le
  rw [i64Bytes_length] at hle
  rw [decodeUntyped, usizeAdd_of (by omega), ok_bind, if_pos (by omega), readLE_at h (i64Bytes_length v) hsmall, leNat_i64Bytes, ok_bind,
    i64Of_toNat]

/-- Eight bytes in a slot of text. -/
theorem decodeTyped_str_i64 {v : Int64} (h : At d p (i64Bytes v)) (hsmall : d.length < 2 ^ 63) :
    decodeTyped d p SIGIL_STR = .ok (.int v) ↔
      1024 * 1024 < v.toUInt64.toNat % 2 ^ 32 ∨ d.length - (p + 4) < v.toUInt64.toNat % 2 ^ 32 := by
  have hle := h.le
  rw [i64Bytes_length] at hle
  have hread : prefixLen d p = .ok (v.toUInt64.toNat % 2 ^ 32) := by
    have hw : ((i64Bytes v).take 4).length = 4 := by rw [List.length_take, i64Bytes_length]; rfl
    rw [prefixLen, usizeAdd_of (by omega), ok_bind, ensure_of (by omega), ok_bind, readLE_at (h.take 4) hw hsmall, leNat_take_i64]
  have hlt : v.toUInt64.toNat % 2 ^ 32 < 2 ^ 32 := Nat.mod_lt _ (by decide)
  rw [decodeTyped, if_neg (by decide), if_neg (by decide), if_neg (by decide), if_neg (by decide), if_pos rfl, hread, ok_bind,
    usizeAdd_of (by omega), ok_bind, usizeAdd_of (by omega), ok_bind]
  by_cases hlong : v.toUInt64.toNat % 2 ^ 32 > 1024 * 1024 ∨ p + 4 + v.toUInt64.toNat % 2 ^ 32 > d.length
  · rw [if_pos hlong, decodeUntyped_i64 h hsmall]
    exact iff_of_true rfl (by omega)
  · rw [if_neg hlong]
    refine iff_of_false (fun hv => ?_) (by omega)
    obtain ⟨b, -, hv⟩ := bind_eq_ok.mp hv
    cases hv

theorem decodeTyped_i64 {v : Int64} (h : At d p (i64Bytes v)) (hsmall : d.length < 2 ^ 63) :
    decodeTyped d p sigil = .ok (.int v) ↔ sigil ∉ [SIGIL_NULL, SIGIL_FLOAT, SIGIL_BOOL, SIGIL_TIME, SIGIL_BINARY] ∧
      (sigil = SIGIL_STR → 1024 * 1024 < v.toUInt64.toNat % 2 ^ 32 ∨ d.length - (p + 4) < v.toUInt64.toNat % 2 ^ 32) := by
  constructor
  · intro hv
    refine ⟨?_, fun hstr => (decodeTyped_str_i64 h hsmall).mp (hstr ▸ hv)⟩
    obtain ⟨h1, h2, h3, h4, h5⟩ := decodeTyped_ofSigil hv
    simp [h1, h2, h3, h4, h5]
  · rintro ⟨hnot, hlong⟩
    simp only [List.mem_cons, List.not_mem_nil, or_false, not_or] at hnot
    obtain ⟨hnull, hfloat, hbool, htime, hbinary⟩ := hnot
    by_cases hstr : sigil = SIGIL_STR
    · have hint := (decodeTyped_str_i64 h hsmall).mpr (hlong hstr)
      rwa [hstr]
    · by_cases hint : sigil = SIGIL_INT
      · rw [decodeTyped, if_neg hnull, if_pos hint, word8_i64 h hsmall, ok_bind, i64Of_toNat]
      · rw [decodeTyped, if_neg hnull, if_neg hint, if_neg hfloat, if_neg hbool, if_neg hstr, if_neg htime, if_neg hbinary,
          decodeUntyped_i64 h hsmall]

/-- The length in front of a value is cut to 32 bits. -/
theorem prefixLen_prefixed {b : Bytes} (h : At d p (prefixed b)) (hsmall : d.length < 2 ^ 63) :
    prefixLen d p = .ok (b.length % 2 ^ 32) ∧ At d (p + 4) b := by
  have hle := h.le
  have h' := h
  rw [prefixed, padTo, at_append, at_append, leBytes_length] at h'
  obtain ⟨⟨hlen, hbytes⟩, -⟩ := h'
  rw [prefixed_length, prefixedLen] at hle
  refine ⟨?_, hbytes⟩
  rw [prefixLen, usizeAdd_of (by omega), ok_bind, ensure_of (by omega), ok_bind, readLE_at hlen (leBytes_length _ _) hsmall,
    leNat_leBytes_mod]
  rfl

/-- Text is decoded as text up to a megabyte. -/
theorem decodeTyped_str {s : String} (h : At d p (prefixed (utf8 s))) (hsmall : d.length < 2 ^ 63) :
    decodeTyped d p SIGIL_STR = .ok (.str s) ↔ (utf8 s).length ≤ 1024 * 1024 := by
  obtain ⟨hread, hbytes⟩ := prefixLen_prefixed h hsmall
  have hle := hbytes.le
  have hlt : (utf8 s).length % 2 ^ 32 < 2 ^ 32 := Nat.mod_lt _ (by decide)
  have hmod : (utf8 s).length % 2 ^ 32 ≤ (utf8 s).length := Nat.mod_le _ _
  rw [decodeTyped, if_neg (by decide), if_neg (by decide), if_neg (by decide), if_neg (by decide), if_pos rfl, hread, ok_bind,
    usizeAdd_of (by omega), ok_bind, usizeAdd_of (by omega), ok_bind]
  constructor
  · intro hv
    split at hv <;> rename_i hlong
    · rcases decodeUntyped_ofSigil hv with ⟨n, hn⟩ | ⟨b, hb⟩
      · cases hn
      · cases hb
    · -- what the cut length leaves of the text is not all of it
      obtain ⟨b, hb, hv⟩ := bind_eq_ok.mp hv
      cases hv
      have hshort := fromUtf8Lossy_length b
      have hblen : b.length = (utf8 (fromUtf8Lossy b)).length % 2 ^ 32 := by
        rw [range] at hb
        split at hb
        · have hlen := congrArg List.length (Outcome.ok.inj hb)
          rw [List.length_take, List.length_drop] at hlen
          omega
        · cases hb
      omega
  · intro hshort
    rw [Nat.mod_eq_of_lt (by omega), if_neg (by omega), range_at hbytes, ok_bind, fromUtf8Lossy_utf8]

theorem decodeTyped_binary {b : Bytes} (h : At d p (prefixed b)) (hsmall : d.length < 2 ^ 63) :
    decodeTyped d p SIGIL_BINARY = .ok (.binary b) ↔ b.length < 2 ^ 32 := by
  obtain ⟨hread, hbytes⟩ := prefixLen_prefixed h hsmall
  have hle := hbytes.le
  have hlt : b.length % 2 ^ 32 < 2 ^ 32 := Nat.mod_lt _ (by decide)
  have hmod : b.length % 2 ^ 32 ≤ b.length := Nat.mod_le _ _
  rw [decodeTyped, if_neg (by decide), if_neg (by decide), if_neg (by decide), if_neg (by decide), if_neg (by decide), if_neg (by decide),
    if_pos rfl, hread, ok_bind, usizeAdd_of (by omega), ok_bind, usizeAdd_of (by omega), ok_bind, ensure_of (by omega), ok_bind]
  constructor
  · intro hv
    obtain ⟨b', hb', hv⟩ := bind_eq_ok.mp hv
    cases hv
    rw [range] at hb'
    split at hb'
    · have hlen := congrArg List.length (Outcome.ok.inj hb')
      rw [List.length_take, List.length_drop] at hlen
      omega
    · cases hb'
  · intro hshort
    rw [Nat.mod_eq_of_lt hshort, range_at hbytes, ok_bind]

/-- The values that are decoded as they were written. -/
theorem decodeValueAt_arg {x : Arg} (hscalar : x.Scalar) (h : At d p x.bytesOf) (hsmall : d.length < 2 ^ 63) :
    decodeValueAt d p sigil = .ok x.cell.decoded ↔ x.KeptBy sigil (d.length - (p + 4)) := by
  have h4 : 4 ≤ x.bytesOf.length := by
    have hpos := x.bytesOf_pos
    omega
  have hraw : ∀ b, x.cell.decoded ≠ .raw b := by cases x <;> simp [Arg.cell, Cell.decoded]
  have hlist : ∀ items, x.cell.decoded ≠ .list items := by cases x <;> simp [Arg.cell, Cell.decoded]
  rw [decodeValueAt_iff h h4 hsmall hraw hlist]
  -- under a sigil of its own a value is decoded by it, and under no other
  have hsame : ∀ {s : UInt8} {P Q : Prop}, (decodeTyped d p sigil = .ok x.cell.decoded → sigil = s) → s ≠ SIGIL_LINK →
      (decodeTyped d p s = .ok x.cell.decoded ↔ Q) → (NotMagic (leNat (x.bytesOf.take 4)) ∧ Q ↔ P) →
      (sigil ≠ SIGIL_LINK ∧ NotMagic (leNat (x.bytesOf.take 4)) ∧ decodeTyped d p sigil = .ok x.cell.decoded ↔ P ∧ sigil = s) := by
    intro s P Q hs hne hQ hP
    constructor
    · rintro ⟨-, hmagic, htyped⟩
      obtain rfl := hs htyped
      exact ⟨hP.mp ⟨hmagic, hQ.mp htyped⟩, rfl⟩
    · rintro ⟨hp, rfl⟩
      obtain ⟨hmagic, hq⟩ := hP.mpr hp
      exact ⟨hne, hmagic, hQ.mpr hq⟩
  cases x with
  | null | listI64 vs | listF64 vs => exact hscalar.elim
  | i64 v =>
    rw [show leNat ((Arg.i64 v).bytesOf.take 4) = v.toUInt64.toNat % 2 ^ 32 from leNat_take_i64 v]
    have hcons : sigil ∉ [SIGIL_LINK, SIGIL_NULL, SIGIL_FLOAT, SIGIL_BOOL, SIGIL_TIME, SIGIL_BINARY] ↔
        sigil ≠ SIGIL_LINK ∧ sigil ∉ [SIGIL_NULL, SIGIL_FLOAT, SIGIL_BOOL, SIGIL_TIME, SIGIL_BINARY] := by
      rw [List.mem_cons, not_or]
    rw [show (Arg.i64 v).cell.decoded = .int v from rfl, decodeTyped_i64 h hsmall, Arg.KeptBy, hcons, and_left_comm, and_assoc]
  | f64 v =>
    refine hsame decodeTyped_ofSigil (by decide) (Q := True) (iff_of_true ?_ trivial) ?_
    · rw [decodeTyped, if_neg (by decide), if_neg (by decide), if_pos rfl, word8_f64 h hsmall, ok_bind, f64Of_toNat]
      rfl
    · rw [and_true, show leNat ((Arg.f64 v).bytesOf.take 4) = v.bits.toNat % 2 ^ 32 from leNat_take_f64 v]
  | bool b =>
    rw [Arg.KeptBy, ← true_and (sigil = SIGIL_BOOL)]
    refine hsame decodeTyped_ofSigil (by decide) (Q := True) (iff_of_true ?_ trivial) (iff_of_true ⟨?_, trivial⟩ trivial)
    · rw [decodeTyped, if_neg (by decide), if_neg (by decide), if_neg (by decide), if_pos rfl, index_at h, ok_bind]
      cases b <;> rfl
    · cases b <;> decide
  | time v =>
    refine hsame decodeTyped_ofSigil (by decide) (Q := True) (iff_of_true ?_ trivial) ?_
    · rw [decodeTyped, if_neg (by decide), if_neg (by decide), if_neg (by decide), if_neg (by decide), if_neg (by decide), if_pos rfl,
        word8_i64 h hsmall, ok_bind, i64Of_toNat]
      rfl
    · rw [and_true, show leNat ((Arg.time v).bytesOf.take 4) = v.toUInt64.toNat % 2 ^ 32 from leNat_take_i64 v]
  | str s =>
    refine hsame decodeTyped_ofSigil (by decide) (decodeTyped_str h hsmall) (and_iff_right_of_imp fun hlen => ?_)
    rw [show leNat ((Arg.str s).bytesOf.take 4) = (utf8 s).length % 2 ^ 32 from leNat_take_prefixed _, Nat.mod_eq_of_lt (by omega)]
    exact ⟨fun heq => absurd (heq ▸ hlen) (by decide), fun heq => absurd (heq ▸ hlen) (by decide)⟩
  | bytes b =>
    refine hsame decodeTyped_ofSigil (by decide) (decodeTyped_binary h hsmall) (and_congr_left fun hlen => ?_)
    rw [show leNat ((Arg.bytes b).bytesOf.take 4) = b.length % 2 ^ 32 from leNat_take_prefixed _, Nat.mod_eq_of_lt hlen]

end Args

/-! ## Objects -/

/-- A mask of more bytes than are read ends nowhere. -/
theorem readMask_long {d : Bytes} {pos k : ℕ} {q : ℕ → Bool} (hat : At d pos (maskBytes k q)) :
    ∀ (fuel i : ℕ) (bits : List Bool), i + fuel < k → readMask d fuel (pos + i) bits = none'
  | 0, _, _, _ => rfl
  | fuel + 1, i, bits, hlt => by
    rw [readMask, get_maskBytes hat (by omega), ok_bind]
    dsimp only
    rw [moreMask_byteOfBits, if_pos (decide_eq_true (by omega)), Nat.add_assoc]
    exact readMask_long hat fuel (i + 1) _ (by omega)

section Object

variable {d : Bytes} {off n : ℕ} {cells : List (ℕ × Bytes)} {order : List (ℕ × ℕ)}
  (hat : At d off (filledObject n cells (order.map fun e => e.2 % 65536))) (hd : d.length < 2 ^ 63) (horder : TableOrder n cells order)
  (hdistinct : (cells.map Prod.fst).Nodup) (hslots : ∀ c ∈ cells, c.1 < n)

include horder hdistinct in
/-- The slots of the table ascend. -/
theorem TableOrder.ascending : (order.map Prod.fst).Pairwise (· < ·) := by
  have hnd : (order.map Prod.fst).Nodup := horder.slots.nodup_iff.mpr hdistinct
  exact (horder.slots_sorted.and hnd).imp fun h => Nat.lt_of_le_of_ne h.1 h.2

include horder hdistinct hslots in
/-- The present slots of the mask are those of the table. -/
theorem presentSlots_filled :
    presentSlots ((List.range (7 * bitmaskLen n)).map (objectSlots cells)) = order.map Prod.fst := by
  have hmem : ∀ s, s ∈ order.map Prod.fst ↔ s ∈ cells.map Prod.fst := fun s => horder.slots.mem_iff
  rw [presentSlots_map, ← filter_range_of_ascending (horder.ascending hdistinct) (m := 7 * bitmaskLen n)]
  · refine List.filter_congr fun i _ => ?_
    rw [objectSlots, Bool.eq_iff_iff, List.any_eq_true, List.any_eq_true]
    constructor
    · rintro ⟨c, hc, hci⟩
      exact ⟨c.1, (hmem _).mpr (List.mem_map_of_mem hc), hci⟩
    · rintro ⟨s, hs, hsi⟩
      obtain ⟨c, hc, rfl⟩ := List.mem_map.mp ((hmem s).mp hs)
      exact ⟨c, hc, hsi⟩
  · intro s hs
    obtain ⟨c, hc, rfl⟩ := List.mem_map.mp ((hmem s).mp hs)
    have hlt := hslots c hc
    unfold bitmaskLen
    omega

include hat hd horder hdistinct hslots

/-- The fields of an object are decoded in the order of its table, within the limits of the decoder. -/
theorem decodeObject_filled (hplaces : ∀ e ∈ order, e.2 < 65536) (hmask : n ≤ 518) (hcount : cells.length ≤ 512) (keys : List String)
    (sigils : List UInt8) :
    decodeObject d off keys sigils = (order.map fun e => (e.1, off + e.2)).mapM (decodeField d keys sigils) := by
  have hm := filledObject_mask hat
  have hmle := hm.le
  rw [maskBytes_length] at hmle
  have hmagic : At d off (leBytes 4 MAGIC_OBJ) := by
    rw [filledObject, closedObject] at hat
    simp only [at_append] at hat
    exact hat.1.1.1.1
  have hoffsets : (List.range order.length).mapM (readOffset d off (off + 8 + bitmaskLen n)) = .ok (order.map fun e => off + e.2) := by
    rw [mapM_eq_ok, List.forall₂_iff_get]
    refine ⟨by rw [List.length_range, List.length_map], fun i hi hi' => ?_⟩
    rw [List.length_range] at hi
    have hplace := hplaces _ (List.getElem_mem hi)
    have hentry := filledObject_entry hat (i := i) (o := order[i].2) (by
      rw [List.getElem?_map, List.getElem?_eq_getElem hi, Option.map_some, Nat.mod_eq_of_lt hplace])
    have hle := hentry.le
    rw [leBytes_length] at hle
    simp only [List.get_eq_getElem, List.getElem_range, List.getElem_map]
    rw [readOffset, usizeMul_of (by omega), ok_bind, usizeAdd_of (by omega), ok_bind, usizeAdd_of (by omega), ok_bind,
      ensure_of (by omega), ok_bind, readLE_leBytes hentry hplace hd, ok_bind, usizeAdd_of (by omega)]
  have hlimit : bitmaskLen n ≤ 74 := by
    unfold bitmaskLen
    omega
  rw [decodeObject, usizeAdd_of (by omega), ok_bind, ensure_of (by omega), ok_bind, readLE_leBytes hmagic (by decide) hd, ok_bind,
    ensure_of rfl, ok_bind, readMask_object hm hlimit, okOr_ok, ok_bind]
  dsimp only
  rw [presentSlots_filled horder hdistinct hslots, List.length_map, horder.length, ensure_of (by omega), ok_bind, ← horder.length,
    hoffsets, ok_bind, List.zip_map']

/-- More values than this are not decoded. -/
theorem decodeObject_filled_count (hmask : n ≤ 518) {keys : List String} {sigils : List UInt8} {fields : List (String × DecodedValue)}
    (h : decodeObject d off keys sigils = .ok fields) : cells.length ≤ 512 := by
  have hm := filledObject_mask hat
  have hmle := hm.le
  have hlimit : bitmaskLen n ≤ 74 := by
    unfold bitmaskLen
    omega
  rw [decodeObject, usizeAdd_of (by omega), ok_bind] at h
  obtain ⟨_, -, h⟩ := bind_eq_ok.mp h
  obtain ⟨_, -, h⟩ := bind_eq_ok.mp h
  obtain ⟨_, -, h⟩ := bind_eq_ok.mp h
  rw [readMask_object hm hlimit, okOr_ok, ok_bind] at h
  dsimp only at h
  obtain ⟨_, hcount, -⟩ := bind_eq_ok.mp h
  rw [presentSlots_filled horder hdistinct hslots, List.length_map, horder.length, ensure_eq_ok] at hcount
  omega

end Object

/-- Nor are values of more keys than the mask may have bits for. -/
theorem decodeObject_filled_keys {d : Bytes} {off n : ℕ} {cells : List (ℕ × Bytes)} {offsets : List ℕ}
    (hat : At d off (filledObject n cells offsets)) (hd : d.length < 2 ^ 63) {keys : List String} {sigils : List UInt8}
    {fields : List (String × DecodedValue)} (h : decodeObject d off keys sigils = .ok fields) : n ≤ 518 := by
  have hm := filledObject_mask hat
  have hmle := hm.le
  rw [decodeObject, usizeAdd_of (by omega), ok_bind] at h
  obtain ⟨_, -, h⟩ := bind_eq_ok.mp h
  obtain ⟨_, -, h⟩ := bind_eq_ok.mp h
  obtain ⟨_, -, h⟩ := bind_eq_ok.mp h
  obtain ⟨_, hbits, -⟩ := bind_eq_ok.mp h
  by_contra hlong
  have hmask : 0 + 74 < bitmaskLen n := by
    unfold bitmaskLen
    omega
  have hnone := readMask_long hm 74 0 [] hmask
  rw [Nat.add_zero] at hnone
  rw [hnone] at hbits
  cases hbits

/-! ## Records -/

/-- A record is decoded as it was written: the values of its slots, each under the key of the slot. -/
def RecordDecoded (d : Bytes) (off : ℕ) (keys : List String) (sigils : List UInt8) (calls : List Call) : Prop :=
  ∃ ordered : List Call, ordered.Perm calls ∧ (ordered.Pairwise fun a b => a.slot < b.slot) ∧
    decodeRecordAt d off keys sigils = .ok (ordered.map fun c => (keys.getD c.slot s!"key_{c.slot}", c.arg.cell.decoded))

/-- What a record may hold to be decoded as it was written. -/
structure RecordKept (d : Bytes) (off : ℕ) (keys : List String) (sigils : List UInt8) (calls : List Call) : Prop where
  mask : keys.length ≤ 518
  count : calls.length ≤ 512
  values : ∀ c ∈ calls, ∀ p, (c.slot, p) ∈ cellPlaces (off + objectStart keys.length) (callCells calls) →
    c.arg.KeptBy (sigils.getD c.slot 0) (d.length - (p + 4))

/-- Of every order of the table the fields are those of the calls in slot order. -/
theorem recordDecoded_iff_of {d : Bytes} {off : ℕ} {keys : List String} {sigils : List UInt8} {calls : List Call} {order : List (ℕ × ℕ)}
    (hdecode : decodeObject d off keys sigils = (order.map fun e => (e.1, off + e.2)).mapM (decodeField d keys sigils))
    (horder : TableOrder keys.length (callCells calls) order) (hdistinct : (calls.map Call.slot).Nodup)
    (hfield : ∀ e ∈ order, ∀ c ∈ calls, c.slot = e.1 →
      (decodeValueAt d (off + e.2) (sigils.getD c.slot 0) = .ok c.arg.cell.decoded ↔
        c.arg.KeptBy (sigils.getD c.slot 0) (d.length - (off + e.2 + 4)))) :
    RecordDecoded d off keys sigils calls ↔
      ∀ c ∈ calls, ∀ p, (c.slot, p) ∈ cellPlaces (off + objectStart keys.length) (callCells calls) →
        c.arg.KeptBy (sigils.getD c.slot 0) (d.length - (p + 4)) := by
  have hslots : (order.map Prod.fst).Perm (calls.map Call.slot) := by
    rw [← callCells_slots]
    exact horder.slots
  have hplace : ∀ s p, (s, p) ∈ cellPlaces (off + objectStart keys.length) (callCells calls) ↔ ∃ q, (s, q) ∈ order ∧ p = off + q := by
    intro s p
    rw [cellPlaces_shift, List.mem_map]
    constructor
    · rintro ⟨e, he, heq⟩
      cases heq
      exact ⟨e.2, horder.perm.mem_iff.mpr he, rfl⟩
    · rintro ⟨q, hq, rfl⟩
      exact ⟨(s, q), horder.perm.mem_iff.mp hq, rfl⟩
  -- calls in slot order have the slots of the table, one by one
  have hsame : ∀ {ordered : List Call}, ordered.Perm calls → (ordered.Pairwise fun a b => a.slot < b.slot) →
      order.length = ordered.length ∧ ∀ i (hi : i < order.length) (hi' : i < ordered.length), order[i].1 = ordered[i].slot := by
    intro ordered hperm hasc
    have hcells : ((callCells calls).map Prod.fst).Nodup := by rwa [callCells_slots]
    have heq : order.map Prod.fst = ordered.map Call.slot := by
      refine (hslots.trans (hperm.map Call.slot).symm).eq_of_pairwise (fun a b _ _ hab hba => ?_) (horder.ascending hcells)
        (List.pairwise_map.mpr hasc)
      omega
    refine ⟨by simpa using congrArg List.length heq, fun i hi hi' => ?_⟩
    have h := List.getElem_of_eq heq (by rwa [List.length_map])
    rwa [List.getElem_map, List.getElem_map] at h
  have hfields : ∀ {ordered : List Call}, ordered.Perm calls → (ordered.Pairwise fun a b => a.slot < b.slot) →
      (decodeRecordAt d off keys sigils = .ok (ordered.map fun c => (keys.getD c.slot s!"key_{c.slot}", c.arg.cell.decoded)) ↔
        ∀ i (hi : i < order.length) (hi' : i < ordered.length),
          ordered[i].arg.KeptBy (sigils.getD ordered[i].slot 0) (d.length - (off + order[i].2 + 4))) := by
    intro ordered hperm hasc
    obtain ⟨hlen, hslot⟩ := hsame hperm hasc
    rw [decodeRecordAt, hdecode, mapM_eq_ok, List.forall₂_map_left_iff, List.forall₂_map_right_iff, List.forall₂_iff_get,
      and_iff_right hlen]
    refine forall_congr' fun i => forall_congr' fun hi => forall_congr' fun hi' => ?_
    rw [List.get_eq_getElem, List.get_eq_getElem,
      ← hfield _ (List.getElem_mem hi) _ (hperm.mem_iff.mp (List.getElem_mem hi')) (hslot i hi hi').symm, hslot i hi hi', decodeField,
      bind_eq_ok]
    constructor
    · rintro ⟨v, hv, h⟩
      rw [hv, Outcome.ok.injEq]
      exact congrArg Prod.snd (Outcome.ok.inj h)
    · intro hv
      exact ⟨_, hv, rfl⟩
  constructor
  · rintro ⟨ordered, hperm, hasc, hrecord⟩ c hc p hp
    obtain ⟨q, hq, rfl⟩ := (hplace _ _).mp hp
    obtain ⟨i, hi, hget⟩ := List.getElem_of_mem hq
    obtain ⟨hlen, hslot⟩ := hsame hperm hasc
    have hi' : i < ordered.length := hlen ▸ hi
    have hown : ordered[i] = c := by
      refine List.inj_on_of_nodup_map hdistinct (hperm.mem_iff.mp (List.getElem_mem hi')) hc ?_
      rw [← hslot i hi hi', hget]
    have hkept := (hfields hperm hasc).mp hrecord i hi hi'
    rwa [hown, hget] at hkept
  · intro hkept
    have hle : ∀ a b c : Call, decide (a.slot ≤ b.slot) = true → decide (b.slot ≤ c.slot) = true → decide (a.slot ≤ c.slot) = true := by
      intro a b c hab hbc
      rw [decide_eq_true_eq] at hab hbc ⊢
      exact hab.trans hbc
    have htotal : ∀ a b : Call, (decide (a.slot ≤ b.slot) || decide (b.slot ≤ a.slot)) = true := by
      intro a b
      rw [Bool.or_eq_true, decide_eq_true_eq, decide_eq_true_eq]
      exact Nat.le_total _ _
    have hperm := List.mergeSort_perm calls fun a b => decide (a.slot ≤ b.slot)
    have hasc : (calls.mergeSort fun a b => decide (a.slot ≤ b.slot)).Pairwise fun a b => a.slot < b.slot := by
      have hne : (calls.mergeSort fun a b => decide (a.slot ≤ b.slot)).Pairwise fun a b => a.slot ≠ b.slot :=
        List.pairwise_map.mp ((hperm.map Call.slot).nodup_iff.mpr hdistinct)
      refine ((List.pairwise_mergeSort hle htotal calls).and hne).imp fun h => ?_
      exact Nat.lt_of_le_of_ne (decide_eq_true_eq.mp h.1) h.2
    refine ⟨_, hperm, hasc, (hfields hperm hasc).mpr fun i hi hi' => ?_⟩
    refine hkept _ (hperm.mem_iff.mp (List.getElem_mem hi')) _ ((hplace _ _).mpr ⟨order[i].2, ?_, rfl⟩)
    rw [← (hsame hperm hasc).2 i hi hi']
    exact List.getElem_mem hi

/-- A record of a writer, wherever its object stands, is decoded as it was written exactly if each of its values is one that is, and the
mask and the number of values are within the limits of the decoder. -/
theorem record_decoded_iff (sorter : SlotSort) (keys : List String) (w w' : NxsWriter) (hw : RowWriter keys w) (calls : List Call)
    (hscalar : ∀ c ∈ calls, c.arg.Scalar) (hslots : ∀ c ∈ calls, c.slot < keys.length) (hdistinct : (calls.map Call.slot).Nodup)
    (hwrite : w.writeObject sorter calls = .ok w') (hsize : objectLen keys.length (callCells calls) ≤ 65535 ∨ calls.length = 1)
    (d : Slice) (off : ℕ) (hat : At d.bytes off (w'.buf.drop w.buf.length)) (sigils : List UInt8) :
    RecordDecoded d.bytes off keys sigils calls ↔ RecordKept d.bytes off keys sigils calls := by
  obtain ⟨-, offsets, hwrote, hsort⟩ := writeObject_eq_ok hw sorter hwrite
  rw [hwrote.buf, List.drop_left] at hat
  by_cases hkeys : keys.length ≤ 518
  swap
  · refine iff_of_false ?_ fun h => hkeys h.mask
    rintro ⟨_, -, -, hrecord⟩
    exact hkeys (decodeObject_filled_keys hat d.small hrecord)
  have hplaces : ∀ e ∈ cellPlaces (objectStart keys.length) (callCells calls), e.2 < 65536 := by
    rcases hsize with hlen | hone
    · exact cellPlaces_lt (Nat.lt_succ_of_le hlen)
    · obtain ⟨c, rfl⟩ := List.length_eq_one_iff.mp hone
      intro e he
      obtain rfl := List.mem_singleton.mp he
      show objectStart keys.length < 65536
      unfold objectStart objectHeaderLen padLen bitmaskLen
      omega
  obtain ⟨order, w'', horder, hw'', hwrote'⟩ := writeObject_ok hw sorter (fun c hc => div_lt_bitmaskLen (hslots c hc))
    (hsort fun e he => by
      have hlt := hplaces e he
      omega)
  obtain rfl : w' = w'' := Outcome.ok.inj (hwrite.symm.trans hw'')
  have hbuf := hwrote'.buf
  rw [hwrote.buf] at hbuf
  rw [List.append_cancel_left hbuf] at hat
  have hcells : ((callCells calls).map Prod.fst).Nodup := by rwa [callCells_slots]
  have hcellSlots : ∀ c ∈ callCells calls, c.1 < keys.length := by
    intro c hc
    obtain ⟨call, hcall, rfl⟩ := List.mem_map.mp hc
    exact hslots call hcall
  have horderPlaces : ∀ e ∈ order, e.2 < 65536 := fun e he => hplaces e (horder.perm.mem_iff.mp he)
  by_cases hcount : calls.length ≤ 512
  swap
  · refine iff_of_false ?_ fun h => hcount h.count
    rintro ⟨_, -, -, hrecord⟩
    have hle := decodeObject_filled_count hat d.small horder hcells hcellSlots hkeys hrecord
    rw [callCells_length] at hle
    exact hcount hle
  have hdecode := decodeObject_filled hat d.small horder hcells hcellSlots horderPlaces hkeys (by rwa [callCells_length]) keys sigils
  rw [recordDecoded_iff_of hdecode horder hdistinct fun e he c hc hslot => ?_]
  · exact ⟨fun h => ⟨hkeys, hcount, h⟩, fun h => h.values⟩
  -- the value of a call is at the place of its slot
  exact decodeValueAt_arg (hscalar c hc) (value_at_place horder hat hslots hdistinct he hc hslot.symm) d.small

/-- An integer and text. -/
theorem record_decoded_two : ∃ w' : NxsWriter,
    (NxsWriter.new ["a", "b"]).writeObject SlotSort.stable [⟨0, .i64 7⟩, ⟨1, .str "x"⟩] = .ok w' ∧
      RecordDecoded w'.buf 0 ["a", "b"] [SIGIL_INT, SIGIL_STR] [⟨0, .i64 7⟩, ⟨1, .str "x"⟩] := by
  obtain ⟨w', hw'⟩ := isOk_iff.mp (show ((NxsWriter.new ["a", "b"]).writeObject SlotSort.stable
    [⟨0, .i64 7⟩, ⟨1, .str "x"⟩]).isOk = true by decide +kernel)
  have hlen : ((NxsWriter.new ["a", "b"]).writeObject SlotSort.stable [⟨0, .i64 7⟩, ⟨1, .str "x"⟩] >>= fun w =>
      (.ok w.buf.length : Res ℕ)) = .ok 32 := by decide +kernel
  rw [hw', ok_bind] at hlen
  have hbuf : w'.buf.length = 32 := Outcome.ok.inj hlen
  refine ⟨w', hw', (record_decoded_iff SlotSort.stable ["a", "b"] (NxsWriter.new ["a", "b"]) w' ⟨rfl, rfl, rfl⟩ _ (by decide) (by decide)
    (by decide) hw' (.inl (by decide +kernel)) ⟨w'.buf, by omega⟩ 0 (at_self _) _).mpr ⟨by decide, by decide, ?_⟩⟩
  intro c hc p _
  simp only [List.mem_cons, List.not_mem_nil, or_false] at hc
  rcases hc with rfl | rfl
  · exact ⟨by decide, by decide, fun h => absurd h (by decide)⟩
  · exact ⟨by decide +kernel, rfl⟩

/-- The integer that is the magic number of an object is decoded to bytes. -/
theorem record_not_decoded : ¬ ∀ (keys : List String) (w w' : NxsWriter) (calls : List Call), RowWriter keys w →
    (∀ c ∈ calls, c.arg.Scalar) → (∀ c ∈ calls, c.slot < keys.length) → (calls.map Call.slot).Nodup →
    w.writeObject SlotSort.stable calls = .ok w' → objectLen keys.length (callCells calls) ≤ 65535 →
    ∀ sigils, (∀ c ∈ calls, sigils.getD c.slot 0 = c.arg.sigil) → RecordDecoded (w'.buf.drop w.buf.length) 0 keys sigils calls := by
  intro h
  obtain ⟨w', hw'⟩ := isOk_iff.mp (show ((NxsWriter.new ["a"]).writeObject SlotSort.stable [⟨0, .i64 0x4E59584F⟩]).isOk = true by
    decide +kernel)
  obtain ⟨ordered, hperm, -, hrecord⟩ := h ["a"] _ w' _ ⟨rfl, rfl, rfl⟩ (by decide) (by decide) (by decide) hw' (by decide +kernel)
    [SIGIL_INT] (by decide)
  obtain rfl := List.perm_singleton.mp hperm
  have hraw : ((NxsWriter.new ["a"]).writeObject SlotSort.stable [⟨0, .i64 0x4E59584F⟩] >>= fun w =>
      decodeRecordAt (w.buf.drop 0) 0 ["a"] [SIGIL_INT]) = .ok [("a", .raw (i64Bytes 0x4E59584F))] := rfl
  rw [hw', ok_bind] at hraw
  cases hraw.symm.trans hrecord

end Nyxis

import Mathlib.Data.Nat.Bitwise
import Nyxis.Lib.Bytes
import Nyxis.Float

/-!
# Format — the constants, the errors and the scalar types of the `.nxb` format

Magic numbers, sigils, flag bits and the error type are those of the source.  `i64` is `Int64`,
text is `String` with its UTF-8 bytes (`utf8`, `fromUtf8`).  A `Slice` is a byte buffer as Rust
admits it: below `2^63` bytes.
-/

namespace Nyxis

open Lib Lib.Outcome

/-! ## Constants -/

/-- File preamble magic `NYXB`. -/
def MAGIC_FILE : ℕ := 0x4E595842
/-- Object magic `NYXO`. -/
def MAGIC_OBJ : ℕ := 0x4E59584F
/-- List magic `NYXL`. -/
def MAGIC_LIST : ℕ := 0x4E59584C
/-- Footer magic `NXS!`. -/
def MAGIC_FOOTER : ℕ := 0x2153584E
/-- PAX page magic `NXSP`. -/
def MAGIC_PAGE : ℕ := 0x4E585350

def SIGIL_INT : UInt8 := 0x3D
def SIGIL_FLOAT : UInt8 := 0x7E
def SIGIL_BOOL : UInt8 := 0x3F
def SIGIL_KEYWORD : UInt8 := 0x24
def SIGIL_STR : UInt8 := 0x22
def SIGIL_TIME : UInt8 := 0x40
def SIGIL_BINARY : UInt8 := 0x3C
def SIGIL_LINK : UInt8 := 0x26
def SIGIL_NULL : UInt8 := 0x5E

/-- Preamble version of v1.2 files. -/
def VERSION : ℕ := 0x0101
/-- Preamble version when a v1.3 compact flag is set. -/
def VERSION_V13 : ℕ := 0x0103

def FLAG_COLUMNAR : ℕ := 0x0001
def FLAG_SCHEMA_EMBEDDED : ℕ := 0x0002
def FLAG_PAX : ℕ := 0x0004
def FLAG_PAGE_CRC : ℕ := 0x0008
def FLAG_DENSE_FRAMES : ℕ := 0x0010
def FLAG_PACKED_BOOLS : ℕ := 0x0020
def FLAG_NARROW_CELLS : ℕ := 0x0040
def FLAG_DELTA_TAIL : ℕ := 0x0080
def FLAG_DENSE_WIRE_REORDER : ℕ := 0x0100

/-- The v1.3 compact preamble bits. -/
def FLAG_V13_COMPACT_MASK : ℕ :=
  FLAG_DENSE_FRAMES ||| FLAG_PACKED_BOOLS ||| FLAG_NARROW_CELLS ||| FLAG_DELTA_TAIL |||
    FLAG_DENSE_WIRE_REORDER

/-- `flags & f != 0`. -/
def hasFlag (flags f : ℕ) : Bool := flags &&& f != 0

/-! ## Errors -/

inductive NxsError where
  | badMagic
  | unknownSigil (c : Char)
  | badEscape (c : Char)
  | outOfBounds
  | dictMismatch
  | circularLink
  | recursionLimit
  | macroUnresolved (s : String)
  | listTypeMismatch
  | overflow
  | parseError (s : String)
  | ioError (s : String)
  | convertSchemaConflict (s : String)
  | convertParseError (offset : UInt64) (msg : String)
  | convertEntityExpansion
  | convertDepthExceeded
  | invalidFlags
  | incompatibleFlags
  | unsupportedLayout
  | unsupportedFieldType
  | invalidPageMagic
  | pageCrcMismatch
  | unsupportedFlags (bits : ℕ)
  | valueOutOfRange
  deriving DecidableEq, Repr

/-- The outcome of a function returning `Result<T>`. -/
abbrev Res (α : Type) := Outcome NxsError α

/-! ## Scalars -/

/-- `v.to_le_bytes()` of an `i64`. -/
def i64Bytes (v : Int64) : Bytes := leBytes 8 v.toUInt64.toNat

/-- `v.to_le_bytes()` of an `f64`. -/
def f64Bytes (v : F64) : Bytes := leBytes 8 v.bits.toNat

/-- The `i64` with the given eight bytes. -/
def i64Of (n : ℕ) : Int64 := (UInt64.ofNat n).toInt64

/-- The `f64` with the given eight bytes. -/
def f64Of (n : ℕ) : F64 := ⟨UInt64.ofNat n⟩

@[simp] theorem i64Bytes_length (v : Int64) : (i64Bytes v).length = 8 := leBytes_length _ _

@[simp] theorem f64Bytes_length (v : F64) : (f64Bytes v).length = 8 := leBytes_length _ _

@[simp] theorem i64Of_toNat (v : Int64) : i64Of v.toUInt64.toNat = v := by
  rw [i64Of, UInt64.ofNat_toNat, Int64.toInt64_toUInt64]

@[simp] theorem f64Of_toNat (v : F64) : f64Of v.bits.toNat = v := by
  rw [f64Of, UInt64.ofNat_toNat]

theorem leNat_i64Bytes (v : Int64) : leNat (i64Bytes v) = v.toUInt64.toNat :=
  leNat_leBytes v.toUInt64.toNat_lt

theorem leNat_f64Bytes (v : F64) : leNat (f64Bytes v) = v.bits.toNat :=
  leNat_leBytes v.bits.toNat_lt

/-! ## Text -/

/-- `s.as_bytes()`. -/
def utf8 (s : String) : Bytes := s.toByteArray.data.toList

/-- `std::str::from_utf8(l).ok()`. -/
def fromUtf8 (l : Bytes) : Opt String := .ofOption (String.fromUTF8? ⟨l.toArray⟩)

@[simp] theorem fromUtf8_utf8 (s : String) : fromUtf8 (utf8 s) = .ok s := by
  have hb : (⟨(utf8 s).toArray⟩ : ByteArray) = s.toByteArray := by simp [utf8]
  rw [fromUtf8, hb, String.fromUTF8?, dif_pos s.isValidUTF8]
  rfl

theorem utf8_fromUtf8 {l : Bytes} {s : String} (h : fromUtf8 l = .ok s) : utf8 s = l := by
  rw [fromUtf8, ofOption_eq_ok, String.fromUTF8?] at h
  split at h
  · cases h
    rfl
  · cases h

/-- Text without the byte 0, which ends a string in the schema header. -/
def NulFree (s : String) : Prop := (0 : UInt8) ∉ utf8 s

instance (s : String) : Decidable (NulFree s) := inferInstanceAs (Decidable (_ ∉ _))

/-! ## Buffers -/

/-- A byte buffer: neither a Rust slice nor a `Vec` is longer than `isize::MAX`. -/
structure Slice where
  bytes : Bytes
  small : bytes.length < 2 ^ 63

namespace Slice

/-- The `Vec` a writer has built; growing one past `isize::MAX` panics. -/
def ofBytes (b : Bytes) : Res Slice := if h : b.length < 2 ^ 63 then .ok ⟨b, h⟩ else .panic

theorem ofBytes_eq_ok {b : Bytes} {s : Slice} : ofBytes b = .ok s ↔ s.bytes = b := by
  unfold ofBytes
  split
  · rename_i h
    constructor
    · rintro ⟨⟩
      rfl
    · rintro rfl
      rfl
  · rename_i h
    constructor
    · rintro ⟨⟩
    · rintro rfl
      exact absurd s.small h

theorem ofBytes_ne_err {b : Bytes} {e : NxsError} : ofBytes b ≠ .err e := by
  unfold ofBytes
  split <;> simp

/-- The first `k` bytes. -/
def take (file : Slice) (k : ℕ) : Slice :=
  ⟨file.bytes.take k, lt_of_le_of_lt (List.length_take_le' _ _) file.small⟩

end Slice

end Nyxis

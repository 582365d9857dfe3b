import Nyxis.Lib.Memory
import Nyxis.WalCrash

/-!
# SpanEncoder — the span encoder of the WebAssembly module

`encode_span` of `nxs_reducers.c` lays a span out by hand: a header of 32 bytes and nine values behind it.  It reads the
span from a record of 72 bytes and two strings in linear memory.

* `encodeSpan_eq`: the encoder stores the record of the span.
* `encode_span_matches`: it stores what `SpanWal::append` writes.
-/

namespace Nyxis

open Lib Lib.Outcome
open NxsWriter (prefixed prefixed_size)

namespace CEncoder

/-! ## The source -/

def rdU32 (m : Memory) (p : UInt32) : UInt32 :=
  (m p).toUInt32 ||| (m (p + 1)).toUInt32 <<< 8 ||| (m (p + 2)).toUInt32 <<< 16 ||| (m (p + 3)).toUInt32 <<< 24

def rdU64 (m : Memory) (p : UInt32) : UInt64 := (rdU32 m p).toUInt64 ||| (rdU32 m (p + 4)).toUInt64 <<< 32

def wtU32 (m : Memory) (p v : UInt32) : Memory :=
  let m := m.store p (v &&& 0xFF).toUInt8
  let m := m.store (p + 1) (v >>> 8 &&& 0xFF).toUInt8
  let m := m.store (p + 2) (v >>> 16 &&& 0xFF).toUInt8
  m.store (p + 3) (v >>> 24 &&& 0xFF).toUInt8

def wtI64 (m : Memory) (p : UInt32) (v : Int64) : Memory :=
  let u := v.toUInt64
  m.fillBytes p (fun i => (u >>> .ofNat (i * 8) &&& 0xFF).toUInt8) 8

def wtU16 (m : Memory) (p : UInt32) (v : UInt16) : Memory :=
  let m := m.store p (v &&& 0xFF).toUInt8
  m.store (p + 1) (v >>> 8 &&& 0xFF).toUInt8

def wtMemcpy (m : Memory) (dst src n : UInt32) : Memory := m.copyBytes dst src n.toNat

/-- The fields that `encode_span` reads. -/
structure SpanInput where
  traceIdHi : Int64
  traceIdLo : Int64
  spanId : Int64
  parentSpan : Int64
  namePtr : UInt32
  nameLen : UInt32
  svcPtr : UInt32
  svcLen : UInt32
  startTimeNs : Int64
  durationNs : Int64
  statusCode : Int64

def readInput (m : Memory) (f : UInt32) : SpanInput where
  traceIdHi := (rdU64 m f).toInt64
  traceIdLo := (rdU64 m (f + 8)).toInt64
  spanId := (rdU64 m (f + 16)).toInt64
  parentSpan := (rdU64 m (f + 24)).toInt64
  namePtr := rdU32 m (f + 32)
  nameLen := rdU32 m (f + 36)
  svcPtr := rdU32 m (f + 40)
  svcLen := rdU32 m (f + 44)
  startTimeNs := (rdU64 m (f + 48)).toInt64
  durationNs := (rdU64 m (f + 56)).toInt64
  statusCode := (rdU64 m (f + 64)).toInt64

/-- Padding behind a string of `len` bytes and its length. -/
def padOf (len : UInt32) : UInt32 :=
  let used := (4 + len) % 8
  if used ≠ 0 then 8 - used else 0

/-- A string: its length, its bytes and its padding. -/
def wtString (m : Memory) (p src len : UInt32) : Memory :=
  let m := wtU32 m p len
  let m := wtMemcpy m (p + 4) src len
  m.fillBytes (p + 4 + len) (fun _ => 0) (padOf len).toNat

def encodeSpan (m : Memory) (out f : UInt32) : Memory × UInt32 :=
  let s := readInput m f
  let dataStart : UInt32 := 32
  let off0 := dataStart
  let off1 := off0 + 8
  let off2 := off1 + 8
  let off3 := off2 + 8
  let off4 := off3 + 8
  let off5 := off4 + 4 + s.nameLen + padOf s.nameLen
  let off6 := off5 + 4 + s.svcLen + padOf s.svcLen
  let off7 := off6 + 8
  let off8 := off7 + 8
  let total := off8 + 8
  let m := wtU32 m out 0x4E59584F
  let m := wtU32 m (out + 4) total
  let m := m.store (out + 8) 0xFF
  let m := m.store (out + 9) 0x03
  let ot : UInt32 := 10
  let m := wtU16 m (out + ot) off0.toUInt16
  let m := wtU16 m (out + ot + 2) off1.toUInt16
  let m := wtU16 m (out + ot + 4) off2.toUInt16
  let m := wtU16 m (out + ot + 6) off3.toUInt16
  let m := wtU16 m (out + ot + 8) off4.toUInt16
  let m := wtU16 m (out + ot + 10) off5.toUInt16
  let m := wtU16 m (out + ot + 12) off6.toUInt16
  let m := wtU16 m (out + ot + 14) off7.toUInt16
  let m := wtU16 m (out + ot + 16) off8.toUInt16
  let m := wtU16 m (out + ot + 18) 0
  let m := m.store (out + 30) 0
  let m := m.store (out + 31) 0
  let m := wtI64 m (out + off0) s.traceIdHi
  let m := wtI64 m (out + off1) s.traceIdLo
  let m := wtI64 m (out + off2) s.spanId
  let m := wtI64 m (out + off3) s.parentSpan
  let m := wtString m (out + off4) s.namePtr s.nameLen
  let m := wtString m (out + off5) s.svcPtr s.svcLen
  let m := wtI64 m (out + off6) s.startTimeNs
  let m := wtI64 m (out + off7) s.durationNs
  let m := wtI64 m (out + off8) s.statusCode
  (m, total)

/-! ## Reads and writes -/

variable {m : Memory} {p : UInt32}

/-- The bytes of a word in memory. -/
theorem holds_word {w n : ℕ} (h : m.Holds p (leBytes w n)) {i : ℕ} (hi : i < w) :
    (m (p + .ofNat i)).toNat = n / 256 ^ i % 256 := by
  have hbyte : ∀ (w n i : ℕ), i < w → (leBytes w n)[i]? = some (UInt8.ofNat (n / 256 ^ i)) := by
    intro w
    induction w with
    | zero => exact fun n i hi => absurd hi (Nat.not_lt_zero i)
    | succ w ih =>
      intro n i hi
      rw [leBytes]
      cases i with
      | zero => simp
      | succ i => rw [List.getElem?_cons_succ, ih _ _ (by omega), Nat.div_div_eq_div_mul, ← Nat.pow_succ']
  rw [h i _ (hbyte w n i hi), UInt8.toNat_ofNat']

/-- A word is read as the number that its bytes spell. -/
theorem rdU32_eq {v : UInt32} (h : m.Holds p (leBytes 4 v.toNat)) : rdU32 m p = v := by
  have h0 := holds_word h (show 0 < 4 by decide)
  have h1 := holds_word h (show 1 < 4 by decide)
  have h2 := holds_word h (show 2 < 4 by decide)
  have h3 := holds_word h (show 3 < 4 by decide)
  have hv := v.toNat_lt
  rw [show p + .ofNat 0 = p from UInt32.add_zero p, Nat.pow_zero, Nat.div_one] at h0
  rw [show p + .ofNat 1 = p + 1 from rfl] at h1
  rw [show p + .ofNat 2 = p + 2 from rfl] at h2
  rw [show p + .ofNat 3 = p + 3 from rfl] at h3
  rw [← UInt32.toNat_inj, rdU32]
  simp only [UInt32.toNat_or, UInt32.toNat_shiftLeft, UInt8.toNat_toUInt32, h0, h1, h2, h3]
  rw [show (8 : UInt32).toNat % 32 = 8 from rfl, show (16 : UInt32).toNat % 32 = 16 from rfl,
    show (24 : UInt32).toNat % 32 = 24 from rfl]
  have hlt : ∀ k, v.toNat / 256 ^ k % 256 < 256 := fun k => Nat.mod_lt _ (by decide)
  have hb1 := hlt 1
  have hb2 := hlt 2
  have hb3 := hlt 3
  have hshift : ∀ b k, b < 256 → k ≤ 24 → b <<< k % 2 ^ 32 = b <<< k := by
    intro b k hb hk
    rw [Nat.shiftLeft_eq]
    refine Nat.mod_eq_of_lt (lt_of_lt_of_le (Nat.mul_lt_mul_of_pos_right hb (Nat.two_pow_pos k)) ?_)
    calc 256 * 2 ^ k ≤ 256 * 2 ^ 24 := Nat.mul_le_mul_left _ (Nat.pow_le_pow_right (by decide) hk)
      _ = 2 ^ 32 := rfl
  rw [hshift _ 8 hb1 (by decide), hshift _ 16 hb2 (by decide), hshift _ 24 hb3 (by decide),
    or_shift (show v.toNat % 256 < 2 ^ 8 from Nat.mod_lt _ (by decide)),
    or_shift (show v.toNat % 256 + 2 ^ 8 * (v.toNat / 256 ^ 1 % 256) < 2 ^ 16 by omega),
    or_shift (show v.toNat % 256 + 2 ^ 8 * (v.toNat / 256 ^ 1 % 256) + 2 ^ 16 * (v.toNat / 256 ^ 2 % 256) < 2 ^ 24 by omega)]
  omega

theorem rdU64_eq {v : UInt64} (h : m.Holds p (leBytes 8 v.toNat)) : rdU64 m p = v := by
  have hv := v.toNat_lt
  have hsplit : leBytes 8 v.toNat = leBytes 4 (v.toNat % 2 ^ 32) ++ leBytes 4 (v.toNat / 2 ^ 32) := by
    rw [show (8 : ℕ) = 4 + 4 from rfl, leBytes_add, ← leBytes_mod 4 v.toNat]
    rfl
  have hlowLt : v.toNat % 2 ^ 32 < 2 ^ 32 := Nat.mod_lt _ (by decide)
  have hhighLt : v.toNat / 2 ^ 32 < 2 ^ 32 := by omega
  rw [hsplit, Memory.holds_append] at h
  obtain ⟨hlo, hhi⟩ := h
  have hlow : rdU32 m p = .ofNat (v.toNat % 2 ^ 32) := rdU32_eq (by rwa [UInt32.toNat_ofNat_of_lt' hlowLt])
  have hhigh : rdU32 m (p + 4) = .ofNat (v.toNat / 2 ^ 32) := rdU32_eq (by rwa [UInt32.toNat_ofNat_of_lt' hhighLt])
  rw [← UInt64.toNat_inj, rdU64, hlow, hhigh, UInt64.toNat_or, UInt64.toNat_shiftLeft, UInt32.toNat_toUInt64,
    UInt32.toNat_toUInt64, UInt32.toNat_ofNat_of_lt' hlowLt, UInt32.toNat_ofNat_of_lt' hhighLt,
    show (32 : UInt64).toNat % 64 = 32 from rfl, Nat.shiftLeft_eq,
    Nat.mod_eq_of_lt (show v.toNat / 2 ^ 32 * 2 ^ 32 < 2 ^ 64 by omega), ← Nat.shiftLeft_eq, or_shift hlowLt]
  omega

theorem byte32 (v : UInt32) (k : ℕ) (hk : k < 32) :
    (v >>> .ofNat k &&& 0xFF).toUInt8 = UInt8.ofNat (v.toNat / 2 ^ k) := by
  rw [← UInt8.toNat_inj, UInt32.toNat_toUInt8, UInt32.toNat_and, UInt32.toNat_shiftRight,
    UInt32.toNat_ofNat_of_lt' (show k < 2 ^ 32 by omega), Nat.mod_eq_of_lt hk, UInt8.toNat_ofNat', Nat.shiftRight_eq_div_pow,
    show (0xFF : UInt32).toNat = 2 ^ 8 - 1 from rfl, Nat.and_two_pow_sub_one_eq_mod, Nat.mod_mod]

theorem byte64 (v : UInt64) (k : ℕ) (hk : k < 64) :
    (v >>> .ofNat k &&& 0xFF).toUInt8 = UInt8.ofNat (v.toNat / 2 ^ k) := by
  rw [← UInt8.toNat_inj, UInt64.toNat_toUInt8, UInt64.toNat_and, UInt64.toNat_shiftRight,
    UInt64.toNat_ofNat_of_lt' (show k < 2 ^ 64 by omega), Nat.mod_eq_of_lt hk, UInt8.toNat_ofNat', Nat.shiftRight_eq_div_pow,
    show (0xFF : UInt64).toNat = 2 ^ 8 - 1 from rfl, Nat.and_two_pow_sub_one_eq_mod, Nat.mod_mod]

theorem byte16 (v : UInt16) (k : ℕ) (hk : k < 16) :
    (v >>> .ofNat k &&& 0xFF).toUInt8 = UInt8.ofNat (v.toNat / 2 ^ k) := by
  rw [← UInt8.toNat_inj, UInt16.toNat_toUInt8, UInt16.toNat_and, UInt16.toNat_shiftRight,
    UInt16.toNat_ofNat_of_lt' (show k < 2 ^ 16 by omega), Nat.mod_eq_of_lt hk, UInt8.toNat_ofNat', Nat.shiftRight_eq_div_pow,
    show (0xFF : UInt16).toNat = 2 ^ 8 - 1 from rfl, Nat.and_two_pow_sub_one_eq_mod, Nat.mod_mod]

theorem wtU32_eq (v : UInt32) : wtU32 m p v = m.storeBytes p (leBytes 4 v.toNat) := by
  have hfill : wtU32 m p v = m.fillBytes p (fun i => (v >>> .ofNat (i * 8) &&& 0xFF).toUInt8) 4 := by
    have hshift : v >>> UInt32.ofNat (0 * 8) = v := UInt32.shiftRight_zero
    rw [Memory.fillBytes, show List.range 4 = [0, 1, 2, 3] from rfl, List.foldl_cons, show p + .ofNat 0 = p from UInt32.add_zero p,
      hshift]
    rfl
  rw [hfill, Memory.fillBytes_eq, leBytes_eq_map]
  refine congrArg _ (List.map_congr_left fun i hi => byte32 v _ ?_)
  have := List.mem_range.mp hi
  omega

theorem wtU16_eq (v : UInt16) : wtU16 m p v = m.storeBytes p (leBytes 2 v.toNat) := by
  have hfill : wtU16 m p v = m.fillBytes p (fun i => (v >>> .ofNat (i * 8) &&& 0xFF).toUInt8) 2 := by
    have hshift : v >>> UInt16.ofNat (0 * 8) = v := UInt16.shiftRight_zero
    rw [Memory.fillBytes, show List.range 2 = [0, 1] from rfl, List.foldl_cons, show p + .ofNat 0 = p from UInt32.add_zero p,
      hshift]
    rfl
  rw [hfill, Memory.fillBytes_eq, leBytes_eq_map]
  refine congrArg _ (List.map_congr_left fun i hi => byte16 v _ ?_)
  have := List.mem_range.mp hi
  omega

theorem wtI64_eq (v : Int64) : wtI64 m p v = m.storeBytes p (i64Bytes v) := by
  rw [wtI64, i64Bytes, Memory.fillBytes_eq, leBytes_eq_map]
  refine congrArg _ (List.map_congr_left fun i hi => byte64 v.toUInt64 _ ?_)
  have := List.mem_range.mp hi
  omega

theorem store_eq (b : UInt8) : m.store p b = m.storeBytes p [b] := rfl

theorem padOf_eq {n : ℕ} (h : 4 + n < 2 ^ 32) : padOf (.ofNat n) = .ofNat (padLen 8 (4 + n)) := by
  have hused : ((4 + UInt32.ofNat n) % 8).toNat = (4 + n) % 8 := by
    rw [show (4 : UInt32) = .ofNat 4 from rfl, ← UInt32.ofNat_add, UInt32.toNat_mod, UInt32.toNat_ofNat_of_lt' h]
    rfl
  have hlt : (4 + n) % 8 < 8 := Nat.mod_lt _ (by decide)
  rw [padOf, ← UInt32.toNat_inj, UInt32.toNat_ofNat_of_lt' (show padLen 8 (4 + n) < 2 ^ 32 by unfold padLen; omega), padLen]
  by_cases hzero : (4 + UInt32.ofNat n) % 8 = 0
  · have hnat : (4 + n) % 8 = 0 := hused ▸ congrArg UInt32.toNat hzero
    rw [if_neg (not_not.mpr hzero), hnat]
    rfl
  · have hnat : (4 + n) % 8 ≠ 0 := fun heq => hzero (UInt32.toNat_inj.mp (hused.trans heq))
    have hsub : (8 - (4 + UInt32.ofNat n) % 8).toNat = 8 - (4 + n) % 8 := by
      rw [UInt32.toNat_sub_of_le _ _ (UInt32.le_iff_toNat_le.mpr (by rw [hused]; exact hlt.le)), hused]
      rfl
    rw [if_pos hzero, hsub]
    omega

/-- A string in memory is written with its length in front of it and zeros behind it. -/
theorem wtString_eq {src : UInt32} {b : Bytes} (h : m.Holds src b) (hlen : 4 + b.length < 2 ^ 32)
    (hout : ∀ i < b.length, Memory.Outside p (prefixed b).length (src + .ofNat i)) :
    wtString m p src (.ofNat b.length) = m.storeBytes p (prefixed b) := by
  have hbytes : prefixed b = leBytes 4 b.length ++ b ++ zeros (padLen 8 (4 + b.length)) := by
    rw [prefixed, padTo, List.length_append, leBytes_length]
  have hnat : (UInt32.ofNat b.length).toNat = b.length := UInt32.toNat_ofNat_of_lt' (show b.length < 2 ^ 32 by omega)
  have hpad : (UInt32.ofNat (padLen 8 (4 + b.length))).toNat = padLen 8 (4 + b.length) :=
    UInt32.toNat_ofNat_of_lt' (show padLen 8 (4 + b.length) < 2 ^ 32 by unfold padLen; omega)
  have hsize := congrArg List.length hbytes
  simp only [List.length_append, leBytes_length, zeros_length] at hsize
  have hholds : (m.storeBytes p (leBytes 4 b.length)).Holds src b := by
    refine h.storeBytes (by rw [leBytes_length]; decide) fun i hi => le_trans ?_ (hout i hi)
    rw [leBytes_length]
    omega
  have hapart : ∀ i < b.length, Memory.Outside (p + 4) b.length (src + .ofNat i) := fun i hi =>
    ((hout i hi).le (by omega)).shift (k := 4) (by decide)
  have hzeros : (List.range (padLen 8 (4 + b.length))).map (fun _ => (0 : UInt8)) = zeros (padLen 8 (4 + b.length)) := by
    rw [List.map_const', List.length_range, zeros]
  rw [wtString, wtU32_eq, hnat, wtMemcpy, hnat, Memory.copyBytes_eq hholds (by omega) hapart, padOf_eq (by omega), hpad,
    Memory.fillBytes_eq, hzeros, Memory.storeBytes_next rfl, Memory.storeBytes_next (by rw [leBytes_length]; rfl), hbytes,
    List.append_assoc]

/-! ## The call -/

/-- The record of 72 bytes that describes a span. -/
def inputBytes (s : SpanFields) (namePtr svcPtr : UInt32) : Bytes :=
  i64Bytes s.traceIdHi ++ i64Bytes s.traceIdLo ++ i64Bytes s.spanId ++ i64Bytes (s.parentSpanId.getD 0) ++
    leBytes 4 namePtr.toNat ++ leBytes 4 (utf8 s.name).length ++ leBytes 4 svcPtr.toNat ++ leBytes 4 (utf8 s.service).length ++
    i64Bytes s.startTimeNs ++ i64Bytes s.durationNs ++ i64Bytes s.statusCode

/-- The memory has the span at `f` and its strings where it says; the strings are outside the `n` bytes of the output. -/
structure SpanCall (m : Memory) (out f : UInt32) (s : SpanFields) (n : ℕ) (namePtr svcPtr : UInt32) : Prop where
  input : m.Holds f (inputBytes s namePtr svcPtr)
  name : m.Holds namePtr (utf8 s.name)
  service : m.Holds svcPtr (utf8 s.service)
  nameOutside : ∀ i < (utf8 s.name).length, Memory.Outside out n (namePtr + .ofNat i)
  serviceOutside : ∀ i < (utf8 s.service).length, Memory.Outside out n (svcPtr + .ofNat i)

theorem readInput_eq {out f : UInt32} {s : SpanFields} {n : ℕ} {namePtr svcPtr : UInt32}
    (h : SpanCall m out f s n namePtr svcPtr) (hname : (utf8 s.name).length < 2 ^ 32)
    (hservice : (utf8 s.service).length < 2 ^ 32) :
    readInput m f = ⟨s.traceIdHi, s.traceIdLo, s.spanId, s.parentSpanId.getD 0, namePtr, .ofNat (utf8 s.name).length, svcPtr,
      .ofNat (utf8 s.service).length, s.startTimeNs, s.durationNs, s.statusCode⟩ := by
  have hparts := h.input
  simp only [inputBytes, Memory.holds_append, List.length_append, i64Bytes_length, leBytes_length] at hparts
  obtain ⟨⟨⟨⟨⟨⟨⟨⟨⟨⟨h0, h8⟩, h16⟩, h24⟩, h32⟩, h36⟩, h40⟩, h44⟩, h48⟩, h56⟩, h64⟩ := hparts
  have hword : ∀ {q : UInt32} {v : Int64}, m.Holds q (i64Bytes v) → (rdU64 m q).toInt64 = v := by
    intro q v hv
    rw [rdU64_eq (v := v.toUInt64) hv]
    rfl
  have hlen : ∀ {q : UInt32} {k : ℕ}, k < 2 ^ 32 → m.Holds q (leBytes 4 k) → rdU32 m q = .ofNat k := by
    intro q k hk hq
    exact rdU32_eq (by rwa [UInt32.toNat_ofNat_of_lt' hk])
  have e8 : (rdU64 m (f + 8)).toInt64 = s.traceIdLo := hword h8
  have e16 : (rdU64 m (f + 16)).toInt64 = s.spanId := hword h16
  have e24 : (rdU64 m (f + 24)).toInt64 = s.parentSpanId.getD 0 := hword h24
  have e32 : rdU32 m (f + 32) = namePtr := rdU32_eq h32
  have e36 : rdU32 m (f + 36) = .ofNat (utf8 s.name).length := hlen hname h36
  have e40 : rdU32 m (f + 40) = svcPtr := rdU32_eq h40
  have e44 : rdU32 m (f + 44) = .ofNat (utf8 s.service).length := hlen hservice h44
  have e48 : (rdU64 m (f + 48)).toInt64 = s.startTimeNs := hword h48
  have e56 : (rdU64 m (f + 56)).toInt64 = s.durationNs := hword h56
  have e64 : (rdU64 m (f + 64)).toInt64 = s.statusCode := hword h64
  rw [readInput, hword h0, e8, e16, e24, e32, e36, e40, e44, e48, e56, e64]

/-! ## The record -/

/-- The record of a span without payload, byte by byte. -/
theorem recordBytes_eq {s : SpanFields} (hpayload : s.payload = none) : recordBytes s =
    leBytes 4 MAGIC_OBJ ++ leBytes 4 (recordBytes s).length ++ [0xFF] ++ [0x03] ++
      leBytes 2 32 ++ leBytes 2 40 ++ leBytes 2 48 ++ leBytes 2 56 ++ leBytes 2 64 ++
      leBytes 2 (64 + (prefixed (utf8 s.name)).length) ++
      leBytes 2 (64 + (prefixed (utf8 s.name)).length + (prefixed (utf8 s.service)).length) ++
      leBytes 2 (64 + (prefixed (utf8 s.name)).length + (prefixed (utf8 s.service)).length + 8) ++
      leBytes 2 (64 + (prefixed (utf8 s.name)).length + (prefixed (utf8 s.service)).length + 16) ++
      leBytes 2 0 ++ [0] ++ [0] ++
      i64Bytes s.traceIdHi ++ i64Bytes s.traceIdLo ++ i64Bytes s.spanId ++ i64Bytes (s.parentSpanId.getD 0) ++
      prefixed (utf8 s.name) ++ prefixed (utf8 s.service) ++
      i64Bytes s.startTimeNs ++ i64Bytes s.durationNs ++ i64Bytes s.statusCode := by
  have hcells : spanCells s = spanHead s := by
    rw [spanCells, payloadCells, hpayload, Option.elim_none, List.append_nil]
  have hparent : parentBytes s = i64Bytes (s.parentSpanId.getD 0) := by
    rw [parentBytes]
    cases s.parentSpanId <;> rfl
  have hmask : maskBytes (bitmaskLen 10) (objectSlots (spanHead s)) = [0xFF] ++ [0x03] := rfl
  have htable : objectTable 10 (spanHead s) =
      leBytes 2 32 ++ leBytes 2 40 ++ leBytes 2 48 ++ leBytes 2 56 ++ leBytes 2 64 ++
        leBytes 2 (64 + (prefixed (utf8 s.name)).length) ++
        leBytes 2 (64 + (prefixed (utf8 s.name)).length + (prefixed (utf8 s.service)).length) ++
        leBytes 2 (64 + (prefixed (utf8 s.name)).length + (prefixed (utf8 s.service)).length + 8) ++
        leBytes 2 (64 + (prefixed (utf8 s.name)).length + (prefixed (utf8 s.service)).length + 16) := by
    have hmod : ∀ n, leBytes 2 (n % 65536) = leBytes 2 n := fun n => leBytes_mod 2 n
    have hplace : ∀ n, 32 + (8 + (8 + (8 + (8 + n)))) = 64 + n := fun n => by omega
    rw [objectTable, objectOffsets, List.flatMap_map, show (spanHead s).length = 9 from rfl,
      show List.range 9 = [0, 1, 2, 3, 4, 5, 6, 7, 8] from rfl]
    simp only [List.flatMap_cons, List.flatMap_nil, hmod, spanHead, List.take_zero, List.take_succ_cons, objectValues,
      List.length_append, List.length_nil, i64Bytes_length, parentBytes_length, List.append_nil, List.append_assoc]
    rw [show objectStart 10 = 32 from rfl]
    simp only [hplace, Nat.add_assoc]
  have hvalues : objectValues (spanHead s) = i64Bytes s.traceIdHi ++ (i64Bytes s.traceIdLo ++ (i64Bytes s.spanId ++
      (i64Bytes (s.parentSpanId.getD 0) ++ (prefixed (utf8 s.name) ++ (prefixed (utf8 s.service) ++
        (i64Bytes s.startTimeNs ++ (i64Bytes s.durationNs ++ i64Bytes s.statusCode))))))) := by
    rw [← hparent]
    rfl
  have hlen : (recordBytes s).length = objectLen 10 (spanHead s) := by
    rw [recordBytes, objectBytes_length (spanCells_length s), hcells]
  rw [hlen, recordBytes, hcells, objectBytes, hmask, htable, hvalues,
    show zeros (10 * 2 - (spanHead s).length * 2) = leBytes 2 0 from rfl, show zeros (padLen 8 (objectHeaderLen 10)) = [0] ++ [0] from rfl]
  simp only [List.append_assoc]

/-- The offset behind a string. -/
theorem behind_string (b : Bytes) (k : ℕ) (hlen : 4 + b.length < 2 ^ 32) :
    .ofNat k + 4 + .ofNat b.length + padOf (.ofNat b.length) = UInt32.ofNat (k + (prefixed b).length) := by
  rw [padOf_eq hlen, prefixed_size, show (4 : UInt32) = .ofNat 4 from rfl, ← UInt32.ofNat_add, ← UInt32.ofNat_add, ← UInt32.ofNat_add,
    Nat.add_assoc, Nat.add_assoc, ← Nat.add_assoc 4]

theorem recordBytes_size {s : SpanFields} (hpayload : s.payload = none) :
    (recordBytes s).length = 64 + (prefixed (utf8 s.name)).length + (prefixed (utf8 s.service)).length + 24 := by
  have hparts := congrArg List.length (recordBytes_eq hpayload)
  simp only [List.length_append, leBytes_length, i64Bytes_length, List.length_cons, List.length_nil] at hparts
  omega

/-- The encoder stores the record of the span and returns its length. -/
theorem encodeSpan_eq {m : Memory} {out f : UInt32} {s : SpanFields} {namePtr svcPtr : UInt32} (hpayload : s.payload = none)
    (hlen : (recordBytes s).length < 2 ^ 32) (h : SpanCall m out f s (recordBytes s).length namePtr svcPtr) :
    encodeSpan m out f = (m.storeBytes out (recordBytes s), .ofNat (recordBytes s).length) := by
  have hsize := recordBytes_size hpayload
  have hname := prefixed_size (utf8 s.name)
  have hservice := prefixed_size (utf8 s.service)
  have hbytes := recordBytes_eq hpayload
  have hnameOut : ∀ i < (utf8 s.name).length,
      Memory.Outside (out + 64) (prefixed (utf8 s.name)).length (namePtr + .ofNat i) := fun i hi =>
    ((h.nameOutside i hi).le (by omega)).shift (k := 64) (by decide)
  have hserviceOut : ∀ i < (utf8 s.service).length, Memory.Outside (out + .ofNat (64 + (prefixed (utf8 s.name)).length))
      (prefixed (utf8 s.service)).length (svcPtr + .ofNat i) := fun i hi =>
    ((h.serviceOutside i hi).le (by omega)).shift (by omega)
  generalize hP : (prefixed (utf8 s.name)).length = P at *
  generalize hQ : (prefixed (utf8 s.service)).length = Q at *
  have h5 : 32 + 8 + 8 + 8 + 8 + 4 + .ofNat (utf8 s.name).length + padOf (.ofNat (utf8 s.name).length) = UInt32.ofNat (64 + P) := by
    rw [← hP]
    exact behind_string (utf8 s.name) 64 (by omega)
  have h6 : .ofNat (64 + P) + 4 + .ofNat (utf8 s.service).length + padOf (.ofNat (utf8 s.service).length) =
      UInt32.ofNat (64 + P + Q) := by
    rw [← hQ]
    exact behind_string (utf8 s.service) (64 + P) (by omega)
  have h7 : UInt32.ofNat (64 + P + Q) + 8 = .ofNat (64 + P + Q + 8) := (UInt32.ofNat_add _ 8).symm
  have h8 : UInt32.ofNat (64 + P + Q + 8) + 8 = .ofNat (64 + P + Q + 16) := (UInt32.ofNat_add _ 8).symm
  have htotal : UInt32.ofNat (64 + P + Q + 16) + 8 = .ofNat (recordBytes s).length := by
    rw [hsize]
    exact (UInt32.ofNat_add _ 8).symm
  have hcast : ∀ k, leBytes 2 (UInt32.ofNat k).toUInt16.toNat = leBytes 2 k := by
    intro k
    rw [UInt32.toNat_toUInt16, UInt32.toNat_ofNat', Nat.mod_mod_of_dvd _ (by decide)]
    exact leBytes_mod 2 k
  rw [encodeSpan, readInput_eq h (by omega) (by omega)]
  dsimp only
  simp only [wtU32_eq, wtU16_eq, wtI64_eq, store_eq]
  rw [h5, h6, h7, h8, htotal, hcast (64 + P), hcast (64 + P + Q), hcast (64 + P + Q + 8), hcast (64 + P + Q + 16),
    UInt32.toNat_ofNat_of_lt' hlen]
  have next : ∀ {a b : Bytes} {q : UInt32}, q = out + .ofNat a.length →
      (m.storeBytes out a).storeBytes q b = m.storeBytes out (a ++ b) := Memory.storeBytes_next
  have haddr : ∀ k, out + 10 + k = out + (10 + k) := fun k => UInt32.add_assoc out 10 k
  rw [haddr, haddr, haddr, haddr, haddr, haddr, haddr, haddr, haddr]
  rw [next, next, next, next, next, next, next, next, next, next, next, next, next, next, next, next, next, next, next]
  · rw [show out + (32 + 8 + 8 + 8 + 8) = out + 64 from rfl]
    generalize hA : _ ++ i64Bytes (s.parentSpanId.getD 0) = A
    have hfirst : A.length = 64 := by
      rw [← hA]
      simp only [List.length_append, leBytes_length, i64Bytes_length, List.length_singleton]
    have hall : A ++ prefixed (utf8 s.name) ++ prefixed (utf8 s.service) ++ i64Bytes s.startTimeNs ++ i64Bytes s.durationNs ++
        i64Bytes s.statusCode = recordBytes s := by
      rw [← hA]
      exact hbytes.symm
    have hnameHolds : (m.storeBytes out A).Holds namePtr (utf8 s.name) :=
      h.name.storeBytes (by omega) fun i hi => (h.nameOutside i hi).le (by omega)
    have hserviceHolds : (m.storeBytes out (A ++ prefixed (utf8 s.name))).Holds svcPtr (utf8 s.service) := by
      have hA' : (A ++ prefixed (utf8 s.name)).length = 64 + P := by rw [List.length_append, hfirst, hP]
      exact h.service.storeBytes (by omega) fun i hi => (h.serviceOutside i hi).le (by omega)
    rw [wtString_eq hnameHolds (by omega) (by rwa [hP]), next (by rw [hfirst]; rfl),
      wtString_eq hserviceHolds (by omega) (by rwa [hQ]), next (by rw [List.length_append, hfirst, hP]), next, next, next, hall]
    all_goals simp only [List.length_append, hfirst, hP, hQ, i64Bytes_length]
  all_goals
    simp only [List.length_append, leBytes_length, i64Bytes_length, List.length_singleton]
    rfl

/-- The encoder returns the length of the record that an append to a log writes, stores its bytes and no others. -/
theorem encode_span_matches {m : Memory} {out f : UInt32} {s : SpanFields} {namePtr svcPtr : UInt32} (wal : SpanWal)
    (hpayload : s.payload = none) (hlen : (recordBytes s).length < 2 ^ 32)
    (h : SpanCall m out f s (recordBytes s).length namePtr svcPtr) :
    ∃ wal' record, wal.append s = .ok (wal', record) ∧ (encodeSpan m out f).2.toNat = record.length ∧
      (encodeSpan m out f).1.Holds out record ∧
        ∀ a, Memory.Outside out record.length a → (encodeSpan m out f).1 a = m a := by
  obtain ⟨wal', happend⟩ : ∃ wal', wal.append s = .ok (wal', recordBytes s) := by
    rw [SpanWal.append, spanRecord_of_lt (by omega)]
    exact ⟨_, rfl⟩
  refine ⟨wal', recordBytes s, happend, ?_⟩
  have hmemory : (encodeSpan m out f).1 = m.storeBytes out (recordBytes s) := by rw [encodeSpan_eq hpayload hlen h]
  have hreturn : (encodeSpan m out f).2 = .ofNat (recordBytes s).length := by rw [encodeSpan_eq hpayload hlen h]
  have hle : (recordBytes s).length ≤ 2 ^ 32 := Nat.le_of_lt hlen
  rw [hmemory, hreturn]
  exact ⟨UInt32.toNat_ofNat_of_lt' hlen, Memory.holds_storeBytes hle, fun a ha => Memory.storeBytes_outside hle ha⟩

/-- A span without parent. -/
def rootSpan : SpanFields := ⟨1, 2, 3, none, "GET /", "web", 4, 5, 0, none⟩

/-- A memory with the span at 0 and its strings behind it. -/
def spanMemory : Memory :=
  let empty : Memory := fun _ => 0
  ((empty.storeBytes 0 (inputBytes rootSpan 72 80)).storeBytes 72 (utf8 rootSpan.name)).storeBytes 80 (utf8 rootSpan.service)

theorem encode_span_matches_root : ∃ wal' record, (SpanWal.opened false).append rootSpan = .ok (wal', record) ∧
    (encodeSpan spanMemory 128 0).2.toNat = record.length ∧ (encodeSpan spanMemory 128 0).1.Holds 128 record ∧
      ∀ a, Memory.Outside 128 record.length a → (encodeSpan spanMemory 128 0).1 a = spanMemory a := by
  have hlen : (recordBytes rootSpan).length = 112 := by decide +kernel
  have hinput : (inputBytes rootSpan 72 80).length = 72 := by decide +kernel
  have hname : (utf8 rootSpan.name).length = 5 := by decide +kernel
  have hservice : (utf8 rootSpan.service).length = 3 := by decide +kernel
  have hstored : SpanCall spanMemory 128 0 rootSpan (recordBytes rootSpan).length 72 80 := by
    rw [hlen]
    refine ⟨?_, ?_, Memory.holds_storeBytes (by omega), ?_, ?_⟩
    · refine ((Memory.holds_storeBytes (by omega)).storeBytes (by omega) fun i hi => ?_).storeBytes (by omega) fun i hi => ?_
      · rw [hinput] at hi
        rw [hname]
        revert i
        decide +kernel
      · rw [hinput] at hi
        rw [hservice]
        revert i
        decide +kernel
    · refine (Memory.holds_storeBytes (by omega)).storeBytes (by omega) fun i hi => ?_
      rw [hname] at hi
      rw [hservice]
      revert i
      decide +kernel
    · rw [hname]
      decide +kernel
    · rw [hservice]
      decide +kernel
  exact encode_span_matches (SpanWal.opened false) rfl (by omega) hstored

end CEncoder

end Nyxis

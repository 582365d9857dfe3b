import Nyxis.Decoder
import Nyxis.Lib.Safe

/-!
# DecoderTotal — decoding arbitrary bytes

No byte string makes the decoder read out of bounds, overflow, or nest more than sixteen links.  There
is one lemma for each function of the decoder, which says what offsets it may be called with.

* `safe_decodeValueAt`: a value is decoded safely wherever it is, below the limit of a slice.
* `safe_decodeObject`: so is an object that starts within the file.
* `decode_total`: a file is decoded to a value or to an error.
-/

namespace Nyxis

open Lib Lib.Outcome

variable {d : Bytes} (hd : d.length < 2 ^ 63)

include hd

/-! ## Values -/

theorem safe_word8 {offset : ℕ} (h : offset ≤ d.length) :
    Safe (word8 d offset) fun n => n < 2 ^ 64 ∧ offset + 8 ≤ d.length := by
  rw [word8, usizeAdd_of (by omega), ok_bind]
  refine safe_ensure_bind fun hstop => ?_
  exact (safe_readLE (by omega) (by omega)).mono fun n hn => ⟨hn, by omega⟩

theorem safe_prefixLen {offset : ℕ} (h : offset ≤ d.length) :
    Safe (prefixLen d offset) fun n => n < 2 ^ 32 ∧ offset + 4 ≤ d.length := by
  rw [prefixLen, usizeAdd_of (by omega), ok_bind]
  refine safe_ensure_bind fun hstop => ?_
  exact (safe_readLE (by omega) (by omega)).mono fun n hn => ⟨hn, by omega⟩

theorem safe_decodeUntyped {offset : ℕ} (h : offset ≤ d.length) : Safe (decodeUntyped d offset) Any := by
  rw [decodeUntyped, usizeAdd_of (by omega), ok_bind]
  refine safe_if (fun hstop => ?_) fun _ => ?_
  · exact (safe_readLE hstop (by omega)).bind fun _ _ => safe_ok trivial
  · exact (safe_range h (Nat.le_refl _)).bind fun _ _ => safe_ok trivial

/-- A link is followed only from a depth below the limit. -/
theorem safe_linkTarget (depth offset : ℕ) :
    Safe (linkTarget d depth offset) fun _ => depth < MAX_LINK_DEPTH := by
  rw [linkTarget]
  refine safe_ensure_bind fun hoff => safe_ensure_bind fun hdepth => ?_
  refine (safe_word8 hd (by omega)).bind fun target _ => safe_ensure_bind fun _ => ?_
  exact safe_ok (by omega)

/-- Room for one call more than the depths that are left is enough. -/
theorem safe_decodeLink : ∀ (stack : ℕ) {depth : ℕ} (offset : ℕ), MAX_LINK_DEPTH < depth + stack →
    depth ≤ MAX_LINK_DEPTH → Safe (decodeLink d stack depth offset) Any
  | 0, _, _, hroom, hdepth => absurd hroom (by omega)
  | stack + 1, depth, offset, hroom, _ => by
    rw [decodeLink]
    refine (safe_linkTarget hd depth offset).bind fun target hdepth => ?_
    exact safe_decodeLink stack target (by omega) hdepth

theorem safe_decodeListItem {sigil : UInt8} {offset : ℕ} (h : offset ≤ d.length) :
    Safe (decodeListItem d sigil offset) Any := by
  rw [decodeListItem, usizeAdd_of (by omega), ok_bind]
  refine safe_ensure_bind fun hstop => ?_
  have hword : Safe (readLE d offset 8 : Res ℕ) (· < 256 ^ 8) := safe_readLE (by omega) (by omega)
  refine safe_if (fun _ => ?_) fun _ => safe_if (fun _ => ?_) fun _ => ?_
  · exact hword.bind fun _ _ => safe_ok trivial
  · exact hword.bind fun _ _ => safe_ok trivial
  · exact (safe_range (by omega) (by omega)).bind fun _ _ => safe_ok trivial

/-- The count of a list is checked against the bytes behind it, so that no element is out of reach. -/
theorem safe_decodeList {offset : ℕ} (h : offset ≤ d.length) : Safe (decodeList d offset) Any := by
  rw [decodeList, usizeAdd_of (by omega), ok_bind]
  refine safe_ensure_bind fun hstart => ?_
  refine (safe_readLE (by omega) (by omega)).bind fun magic _ => safe_ensure_bind fun _ => ?_
  rw [usizeAdd_of (by omega), ok_bind]
  refine (safe_index (by omega)).bind fun sigil _ => ?_
  rw [usizeAdd_of (by omega), ok_bind]
  refine (safe_readLE (by omega) (by omega)).bind fun count _ => safe_ensure_bind fun hcount => ?_
  refine (safe_mapM (Q := Any) fun i hi => ?_).bind fun items _ => safe_ok trivial
  rw [List.mem_range] at hi
  rw [usizeMul_of (by omega), ok_bind, usizeAdd_of (by omega), ok_bind]
  exact safe_decodeListItem hd (by omega)

theorem safe_decodeTyped {offset : ℕ} (sigil : UInt8) (h : offset < d.length) :
    Safe (decodeTyped d offset sigil) Any := by
  have hword := safe_word8 hd (Nat.le_of_lt h)
  have hprefix := safe_prefixLen hd (Nat.le_of_lt h)
  rw [decodeTyped]
  refine safe_if (fun _ => safe_ok trivial) fun _ => ?_
  refine safe_if (fun _ => hword.bind fun _ _ => safe_ok trivial) fun _ => ?_
  refine safe_if (fun _ => hword.bind fun _ _ => safe_ok trivial) fun _ => ?_
  refine safe_if (fun _ => (safe_index h).bind fun _ _ => safe_ok trivial) fun _ => ?_
  refine safe_if (fun _ => hprefix.bind fun len hlen => ?_) fun _ => ?_
  · rw [usizeAdd_of (by omega), ok_bind, usizeAdd_of (by omega), ok_bind]
    refine safe_if (fun _ => safe_decodeUntyped hd (Nat.le_of_lt h)) fun hshort => ?_
    exact (safe_range (by omega) (by omega)).bind fun _ _ => safe_ok trivial
  refine safe_if (fun _ => hword.bind fun _ _ => safe_ok trivial) fun _ => ?_
  refine safe_if (fun _ => hprefix.bind fun len hlen => ?_) fun _ => safe_decodeUntyped hd (Nat.le_of_lt h)
  rw [usizeAdd_of (by omega), ok_bind, usizeAdd_of (by omega), ok_bind]
  refine safe_ensure_bind fun hstop => ?_
  exact (safe_range (by omega) (by omega)).bind fun _ _ => safe_ok trivial

/-- A value is decoded safely wherever its offset points: the first check is on the offset. -/
theorem safe_decodeValueAt (offset : ℕ) (sigil : UInt8) : Safe (decodeValueAt d offset sigil) Any := by
  rw [decodeValueAt]
  refine safe_if (fun _ => safe_decodeLink hd _ offset (by omega) (Nat.zero_le _)) fun _ => ?_
  refine safe_ensure_bind fun hoff => ?_
  have hpeek : Safe (peekMagic d offset) Any := by
    rw [peekMagic, usizeAdd_of (by omega), ok_bind]
    refine safe_if (fun hstop => ?_) fun _ => safe_ok trivial
    exact (safe_readLE hstop (by omega)).mono fun _ _ => trivial
  refine hpeek.bind fun magic _ => safe_if (fun _ => ?_) fun _ => ?_
  · rw [usizeSub_of (by omega), ok_bind, usizeAdd_of (by omega), ok_bind]
    exact (safe_range (by omega) (by omega)).bind fun _ _ => safe_ok trivial
  exact safe_if (fun _ => safe_decodeList hd (by omega)) fun _ => safe_decodeTyped hd sigil (by omega)

/-! ## Objects -/

omit hd in
/-- The mask of an object ends within the file. -/
theorem safe_readMask : ∀ (fuel pos : ℕ) (bits : List Bool),
    Safe (readMask d fuel pos bits) fun r => r.2 ≤ d.length
  | 0, _, _ => safe_err
  | fuel + 1, pos, bits => by
    rw [readMask]
    refine (safe_get d pos).bind fun byte hpos => ?_
    exact safe_if (fun _ => safe_readMask fuel (pos + 1) _) fun _ => safe_ok (by exact hpos)

theorem safe_readOffset {offset pos i : ℕ} (hoff : offset ≤ d.length) (hpos : pos ≤ d.length)
    (hi : i < 512) : Safe (readOffset d offset pos i) Any := by
  rw [readOffset, usizeMul_of (by omega), ok_bind, usizeAdd_of (by omega), ok_bind,
    usizeAdd_of (by omega), ok_bind]
  refine safe_ensure_bind fun hstop => ?_
  refine (safe_readLE (by omega) (by omega)).bind fun rel hrel => ?_
  exact (safe_usizeAdd (by omega)).mono fun _ _ => trivial

theorem safe_decodeObject {offset : ℕ} (keys : List String) (sigils : List UInt8)
    (h : offset ≤ d.length) : Safe (decodeObject d offset keys sigils) Any := by
  rw [decodeObject, usizeAdd_of (by omega), ok_bind]
  refine safe_ensure_bind fun hbody => ?_
  refine (safe_readLE (by omega) (by omega)).bind fun magic _ => safe_ensure_bind fun _ => ?_
  refine (safe_okOr (safe_readMask 74 _ [])).bind fun mask hmask => ?_
  refine safe_ensure_bind fun hslots => ?_
  refine (safe_mapM (Q := Any) fun i hi => ?_).bind fun offsets _ => ?_
  · rw [List.mem_range] at hi
    exact safe_readOffset hd h hmask (by omega)
  · refine (safe_mapM (Q := Any) fun field _ => ?_).mono fun _ _ => trivial
    rw [decodeField]
    exact (safe_decodeValueAt hd _ _).bind fun _ _ => safe_ok trivial

/-! ## The schema -/

omit hd in
theorem nonNul_le : ∀ l : Bytes, nonNul l ≤ l.length
  | [] => Nat.le_refl 0
  | b :: bs => by
    have ih := nonNul_le bs
    rw [nonNul, List.length_cons]
    split <;> omega

theorem safe_decodeNames : ∀ (n : ℕ) {pos : ℕ}, pos ≤ d.length →
    Safe (decodeNames d n pos) fun r => r.2 ≤ d.length
  | 0, _, h => safe_ok h
  | n + 1, pos, h => by
    have hlen := nonNul_le (d.drop pos)
    rw [List.length_drop] at hlen
    rw [decodeNames]
    refine safe_ensure_bind fun _ => ?_
    rw [usizeAdd_of (by omega), ok_bind]
    refine (safe_range (by omega) (by omega)).bind fun name _ => safe_ensure_bind fun hstop => ?_
    rw [usizeAdd_of (by omega), ok_bind]
    exact (safe_decodeNames n (by omega)).bind fun r hr => safe_ok hr

theorem safe_decodeBasicSchema {pos : ℕ} (h : pos + 2 ≤ d.length) : Safe (decodeBasicSchema d pos) Any := by
  rw [decodeBasicSchema]
  refine (safe_readLE h (by omega)).bind fun keyCount _ => safe_ensure_bind fun _ => ?_
  rw [usizeAdd_of (by omega), ok_bind]
  refine (safe_okOr (safe_checkedAdd _ _)).bind fun stop hstop => safe_ensure_bind fun hle => ?_
  refine (safe_range (by omega) (by omega)).bind fun sigils _ => ?_
  refine (safe_decodeNames hd keyCount (by omega)).bind fun r _ => safe_ensure_bind fun _ => ?_
  exact safe_ok trivial

omit hd in
theorem safe_takeBytes (p n : ℕ) : Safe (takeBytes d p n) fun r => r.2 ≤ d.length := by
  rw [takeBytes]
  refine (safe_okOr (safe_checkedAdd p n)).bind fun stop hstop => safe_ensure_bind fun hle => ?_
  exact (safe_range (by omega) (by omega)).bind fun bytes _ => safe_ok (by omega)

omit hd in
theorem safe_fromUtf8 (b : Bytes) : Safe (fromUtf8 b) Any := by
  unfold fromUtf8
  exact safe_ofOption fun _ _ => trivial

omit hd in
theorem safe_readStrings (msg : String) : ∀ (n : ℕ) {pos : ℕ}, pos ≤ d.length →
    Safe (readStrings msg d n pos) fun r => r.2 ≤ d.length
  | 0, _, h => safe_ok h
  | n + 1, pos, h => by
    rw [readStrings]
    refine safe_ensure_bind fun hstop => ?_
    refine (safe_range (by omega) (by omega)).bind fun bytes _ => ?_
    refine (safe_okOr (safe_fromUtf8 bytes)).bind fun s _ => ?_
    exact (safe_readStrings msg n hstop).bind fun r hr => safe_ok hr

omit hd in
theorem align8_le (pos : ℕ) : align8 pos ≤ pos + 7 := by
  unfold align8
  split <;> omega

theorem safe_parseValuePool {p : ℕ} (h : p ≤ d.length + 7) : Safe (parseValuePool d p) Any := by
  rw [parseValuePool, usizeAdd_of (by omega), ok_bind]
  refine safe_if (fun hstop => ?_) fun _ => safe_ok trivial
  refine (safe_readLE hstop (by omega)).bind fun valueCount _ => ?_
  refine safe_if (fun _ => ?_) fun _ => safe_ok trivial
  exact (safe_readStrings _ valueCount hstop).bind fun r _ => safe_ok trivial

omit hd in
theorem safe_takeColumnBytes {p : ℕ} (n : ℕ) (given : Bool) (h : p ≤ d.length + 7) :
    Safe (takeColumnBytes d p n given) fun r => r.2 ≤ d.length + 7 := by
  rw [takeColumnBytes]
  refine safe_if (fun _ => ?_) fun _ => safe_ok h
  exact (safe_takeBytes p n).mono fun r hr => Nat.le_add_right_of_le hr

theorem safe_parseExtendedSchema {pos : ℕ} (flags : ℕ) (h : pos ≤ d.length) :
    Safe (parseExtendedSchema d pos flags) Any := by
  rw [parseExtendedSchema, usizeAdd_of (by omega), ok_bind]
  refine safe_ensure_bind fun hcount => ?_
  refine (safe_readLE (by omega) (by omega)).bind fun keyCount _ => safe_ensure_bind fun _ => ?_
  refine (safe_takeBytes _ keyCount).bind fun sigils hsigils => ?_
  refine (safe_readStrings _ keyCount hsigils).bind fun keys hkeys => ?_
  have halign := align8_le keys.2
  have hkeysEnd : align8 keys.2 ≤ d.length + 7 := by omega
  refine (safe_takeColumnBytes keyCount _ hkeysEnd).bind fun widths hwidths => ?_
  refine (safe_takeColumnBytes keyCount _ hwidths).bind fun attrs hattrs => ?_
  refine (safe_parseValuePool hd hattrs).bind fun pool _ => safe_ensure_bind fun _ => ?_
  exact safe_ok trivial

theorem safe_decodeHeader (flags : ℕ) (h : 32 + 2 ≤ d.length) : Safe (decodeHeader d flags) Any := by
  rw [decodeHeader]
  refine safe_if (fun _ => ?_) fun _ => safe_decodeBasicSchema hd h
  exact (safe_parseExtendedSchema hd flags (by omega)).bind fun _ _ => safe_ok trivial

theorem safe_decodeSchema (flags dictHash : ℕ) :
    Safe (decodeSchema d flags dictHash) fun r => r.2.2 ≤ d.length ∨ r.2.2 = 32 := by
  rw [decodeSchema]
  refine safe_if (fun hroom => ?_) fun _ => safe_ok (.inr rfl)
  refine (safe_decodeHeader hd flags hroom.2).bind fun schema _ => ?_
  obtain ⟨keys, sigils, stop⟩ := schema
  refine safe_ensure_bind fun hstop => ?_
  refine (safe_range (by omega) (by omega)).bind fun bytes _ => safe_ensure_bind fun _ => ?_
  have hle : stop ≤ d.length := by omega
  exact safe_ok (.inl hle)

/-! ## The tail -/

omit hd in
theorem safe_keyIdBytes (recordCount : ℕ) (singleKeyId : Bool) :
    Safe (keyIdBytes recordCount singleKeyId) Any := by
  rw [keyIdBytes]
  refine safe_if (fun _ => safe_ok trivial) fun _ => ?_
  exact (safe_okOr (safe_checkedMul _ _)).mono fun _ _ => trivial

theorem safe_parseDeltaTailLayout (tailPtr : ℕ) : Safe (parseDeltaTailLayout d tailPtr) Any := by
  rw [parseDeltaTailLayout]
  refine (safe_okOr (safe_checkedAdd _ _)).bind fun headerEnd hheader => safe_ensure_bind fun hle => ?_
  refine (safe_readLE (by omega) (by omega)).bind fun recordCount _ => ?_
  rw [usizeAdd_of (by omega), ok_bind]
  refine (safe_readLE (by omega) (by omega)).bind fun blockSize _ => ?_
  rw [usizeAdd_of (by omega), ok_bind]
  refine safe_ensure_bind fun hfixed => ?_
  rw [usizeAdd_of (by omega), ok_bind]
  refine (safe_readLE (by omega) (by omega)).bind fun tiFlags _ => ?_
  rw [usizeAdd_of (by omega), ok_bind]
  refine (safe_readLE (by omega) (by omega)).bind fun anchorCount _ => ?_
  -- from here on the arithmetic is checked
  refine (safe_okOr (safe_checkedAdd _ _)).bind fun anchorsOff _ => ?_
  refine (safe_okOr (safe_checkedMul _ _)).bind fun anchorBytes _ => ?_
  refine (safe_okOr (safe_checkedAdd _ _)).bind fun deltasOff _ => ?_
  refine (safe_okOr (safe_checkedMul _ _)).bind fun deltaBytes _ => ?_
  refine (safe_okOr (safe_checkedAdd _ _)).bind fun p _ => ?_
  refine (safe_keyIdBytes recordCount _).bind fun keyBytes _ => ?_
  refine (safe_okOr (safe_checkedAdd _ _)).bind fun stop _ => safe_ensure_bind fun _ => ?_
  exact safe_ok trivial

omit hd in
theorem footerSize_le (flags : ℕ) : footerSize flags ≤ 28 := by
  unfold footerSize
  split_ifs <;> omega

omit hd in
/-- The footer of a file with pages or columns has room for the pointer and the record count. -/
theorem le_footerSize {flags : ℕ} (h : hasFlag flags (FLAG_COLUMNAR ||| FLAG_PAX) = true) :
    20 ≤ footerSize flags := by
  have hsplit : hasFlag flags FLAG_COLUMNAR = true ∨ hasFlag flags FLAG_PAX = true := by
    simp only [hasFlag, Nat.and_or_distrib_left, bne_iff_ne] at h ⊢
    by_contra hboth
    rw [not_or, not_not, not_not] at hboth
    rw [hboth.1, hboth.2] at h
    exact h rfl
  unfold footerSize
  split_ifs with hpax hcol
  · omega
  · omega
  · rcases hsplit with hs | hs
    · exact absurd hs hcol
    · exact absurd hs hpax

theorem safe_decodeTailPtr {flags preambleTail : ℕ} : Safe (decodeTailPtr d flags preambleTail) Any := by
  rw [decodeTailPtr]
  refine safe_if (fun hcol => ?_) fun _ => safe_if (fun _ => ?_) fun _ => safe_ok trivial
  · have hfoot := le_footerSize hcol
    refine safe_ensure_bind fun hlen => ?_
    rw [usizeSub_of (by omega), ok_bind]
    exact (safe_readLE (by omega) (by omega)).mono fun _ _ => trivial
  · refine safe_ensure_bind fun hlen => ?_
    rw [usizeSub_of (by omega), ok_bind]
    exact (safe_readLE (by omega) (by omega)).mono fun _ _ => trivial

theorem safe_decodeRecordCount (tailPtr : ℕ) : Safe (decodeRecordCount d tailPtr) Any := by
  rw [decodeRecordCount]
  refine safe_if (fun hle => ?_) fun _ => safe_ok trivial
  exact (safe_readLE (by omega) (by omega)).mono fun _ _ => trivial

theorem safe_decodeTail {flags tailPtr : ℕ} (hlen : 32 ≤ d.length) : Safe (decodeTail d flags tailPtr) Any := by
  rw [decodeTail]
  refine safe_if (fun hcol => ?_) fun _ => safe_if (fun _ => ?_) fun _ => ?_
  · have hfoot := le_footerSize hcol
    have hle := footerSize_le flags
    rw [usizeSub_of (by omega), ok_bind, usizeAdd_of (by omega), ok_bind]
    exact (safe_readLE (by omega) (by omega)).bind fun _ _ => safe_ok trivial
  · exact (safe_parseDeltaTailLayout hd tailPtr).bind fun _ _ => safe_ok trivial
  · exact (safe_decodeRecordCount hd tailPtr).bind fun _ _ => safe_ok trivial

/-! ## Files -/

omit hd in
theorem safe_orEmpty {α : Type} {x : Res (List α)} (h : Safe x Any) : Safe (orEmpty x) Any := by
  cases x with
  | ok l => exact trivial
  | err e => exact trivial
  | panic => exact absurd h id

omit hd in
theorem orEmpty_of_safe {α : Type} {x : Res (List α)} (h : Safe x Any) : ∃ l, orEmpty x = .ok l := by
  rcases h.cases with ⟨l, rfl⟩ | ⟨e, rfl⟩
  · exact ⟨l, rfl⟩
  · exact ⟨[], rfl⟩

theorem safe_checkPageMagic {start : ℕ} (flags : ℕ) (h : start ≤ d.length) :
    Safe (checkPageMagic d flags start) Any := by
  rw [checkPageMagic]
  refine safe_if (fun _ => ?_) fun _ => safe_ok trivial
  rw [usizeAdd_of (by omega), ok_bind]
  refine safe_ensure_bind fun hroom => ?_
  exact (safe_readLE (by omega) (by omega)).bind fun magic _ =>
    (safe_ensure _ _).mono fun _ _ => trivial

theorem safe_decodeRoot {start : ℕ} (flags : ℕ) (keys : List String) (sigils : List UInt8) :
    Safe (decodeRoot d flags start keys sigils) Any := by
  rw [decodeRoot]
  refine safe_if (fun h => ?_) fun _ => safe_ok trivial
  exact safe_orEmpty (safe_decodeObject hd keys sigils (Nat.le_of_lt h.2))

omit hd in
theorem safe_decode (file : Slice) : Safe (decode file) Any := by
  have hd := file.small
  rw [decode]
  refine safe_ensure_bind fun hlen => ?_
  refine (safe_readLE (by omega) (by omega)).bind fun magic _ => safe_ensure_bind fun _ => ?_
  rw [usizeSub_of (by omega), ok_bind]
  refine (safe_readLE (by omega) (by omega)).bind fun footer _ => safe_ensure_bind fun _ => ?_
  refine (safe_readLE (by omega) (by omega)).bind fun version _ => ?_
  refine (safe_readLE (by omega) (by omega)).bind fun flags _ => safe_ensure_bind fun _ => ?_
  refine (safe_readLE (by omega) (by omega)).bind fun dictHash _ => ?_
  refine (safe_readLE (by omega) (by omega)).bind fun preambleTail _ => safe_ensure_bind fun _ => ?_
  refine (safe_decodeTailPtr hd).bind fun tailPtr _ => ?_
  refine (safe_decodeSchema hd flags dictHash).bind fun schema hstart => ?_
  obtain ⟨keys, sigils, start⟩ := schema
  have hstart : start ≤ file.bytes.length := by
    rcases hstart with h | h
    · exact h
    · exact le_trans (le_of_eq h) (by omega)
  refine (safe_checkPageMagic hd flags hstart).bind fun _ _ => ?_
  refine (safe_decodeRoot hd flags keys sigils).bind fun rootFields _ => ?_
  exact (safe_decodeTail hd (by omega)).bind fun tail _ => safe_ok trivial

omit hd in
/-- Every byte string is decoded to a value or to an error.  The model panics at an index or a range out
of bounds, at an overflow, and where links nest deeper than the limit, so that none of these happens. -/
theorem decode_total (file : Slice) :
    (∃ decoded, decode file = .ok decoded) ∨ ∃ e, decode file = .err e :=
  (safe_decode file).cases

end Nyxis

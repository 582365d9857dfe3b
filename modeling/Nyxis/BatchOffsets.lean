import Nyxis.CallRecords
import Nyxis.Query

/-!
# BatchOffsets — the batch lookups of `nxs_reducers.c`

`field_offset` walks the mask of one object.  `build_field_index` and `batch_resolve_offsets` walk the mask of record 0
only, and take the same entry of the offset table of every record.

* `layoutLoop_maskBytes`: what the walk over a whole mask counts.
* `batch_agrees`: the batch lookups find what `field_offset` finds in the records that are laid out like record 0.
-/

namespace Nyxis

open Lib Lib.Outcome

namespace NxsReducers

/-! ## The source -/

/-- `uint32_t` arithmetic wraps. -/
def u32 (n : ℕ) : ℕ := n % 2 ^ 32

/-- The loop of `field_offset` up to the byte that holds the slot; the first argument bounds the number of bytes read.
Neither `cur_slot` nor `table_idx` can wrap in a mask of less than 600 MB. -/
def offsetLoop (data : Bytes) (slot : ℕ) : ℕ → ℕ → MaskState → Opt (ℕ × ℕ × UInt8)
  | 0, _, _ => none'
  | fuel + 1, p, st => do
    ensure (¬ p ≥ data.length) ()
    let byte ← index data p
    let st ← (List.range 7).foldlM (maskBit byte slot) st
    if st.found && !moreMask byte then .ok (p + 1, st.tableIdx, byte)
    else if st.cur > slot ∧ st.found then .ok (p + 1, st.tableIdx, byte)
    else if !moreMask byte then none' -- `if (!found) return -1`
    else offsetLoop data slot fuel (p + 1) st

/-- `while (byte & 0x80)`. -/
def skipLoop (data : Bytes) : ℕ → ℕ → UInt8 → Opt ℕ
  | 0, _, _ => none'
  | fuel + 1, p, byte =>
    if moreMask byte then do
      ensure (¬ p ≥ data.length) ()
      let byte ← index data p
      skipLoop data fuel (p + 1) byte
    else .ok p

/-- `field_offset`, on a file of `size` bytes; `none` is `-1`.  A read behind the file is `panic`. -/
def fieldOffset (data : Bytes) (objOffset slot : ℕ) : Opt ℕ := do
  let p := u32 (objOffset + 8)
  ensure (¬ p > data.length) ()
  let (p, tableIdx, byte) ← offsetLoop data slot (data.length + 1) p ⟨0, 0, false⟩
  let p ← skipLoop data (data.length + 1) p byte
  let ofpos := u32 (p + tableIdx * 2)
  ensure (¬ u32 (ofpos + 2) > data.length) ()
  let rel ← readLE data ofpos 2
  .ok (objOffset + rel)

/-- `fast_layout_t`. -/
structure FastLayout where
  bitmaskLen : ℕ
  tableIdx : ℕ
  present : Bool
  deriving DecidableEq, Repr

/-- One bit of the walk of `compute_fast_layout`. -/
def layoutBit (byte : UInt8) (slot : ℕ) (st : MaskState) (bit : ℕ) : MaskState :=
  if st.cur = slot then { st with cur := st.cur + 1, found := byte.toNat.testBit bit }
  else if st.cur < slot ∧ byte.toNat.testBit bit then { st with cur := st.cur + 1, tableIdx := st.tableIdx + 1 }
  else { st with cur := st.cur + 1 }

/-- The walk over all bytes of a mask, with the position behind it. -/
def layoutLoop (data : Bytes) (slot : ℕ) : ℕ → ℕ → MaskState → Opt (ℕ × MaskState)
  | 0, _, _ => .panic
  | fuel + 1, p, st => do
    let byte ← index data p
    let st := (List.range 7).foldl (layoutBit byte slot) st
    if moreMask byte then layoutLoop data slot fuel (p + 1) st else .ok (p + 1, st)

/-- `(uint32_t)rd_u64(entry + 2)`, where record `i` starts. -/
def recordAbs (data : Bytes) (tailStart i : ℕ) : Opt ℕ := u32 <$> readLE data (tailStart + i * 10 + 2) 8

def computeFastLayout (data : Bytes) (tailStart slot : ℕ) : Opt FastLayout := do
  let abs ← recordAbs data tailStart 0
  let p := u32 (abs + 8)
  let (stop, st) ← layoutLoop data slot (data.length + 1) p ⟨0, 0, false⟩
  .ok ⟨stop - p, st.tableIdx, st.found⟩

/-- The value offset of record `i` by a layout. -/
def layoutOffset (data : Bytes) (tailStart : ℕ) (L : FastLayout) (i : ℕ) : Opt ℕ := do
  let offsetTablePos := u32 (8 + L.bitmaskLen + L.tableIdx * 2)
  let abs ← recordAbs data tailStart i
  let rel ← readLE data (abs + offsetTablePos) 2
  .ok (u32 (abs + rel))

/-- `build_field_index`: the offsets it writes, or nothing where it returns 0. -/
def buildFieldIndex (data : Bytes) (tailStart recordCount slot : ℕ) : Opt (Option (List ℕ)) := do
  let L ← computeFastLayout data tailStart slot
  if !L.present then .ok none
  else do
    let out ← (List.range recordCount).mapM (layoutOffset data tailStart L)
    .ok (some out)

/-- `batch_resolve_offsets`: what it writes for each of the indices. -/
def batchResolveOffsets (data : Bytes) (tailStart slot : ℕ) (indices : List ℕ) : Opt (List ℕ) := do
  let L ← computeFastLayout data tailStart slot
  if !L.present then .ok (indices.map fun _ => 0xFFFFFFFF)
  else indices.mapM (layoutOffset data tailStart L)

/-! ## What the lookups should find -/

/-- `field_offset` of record `i`. -/
def recordOffset (data : Bytes) (tailStart slot i : ℕ) : Opt (Option ℕ) := do
  let abs ← recordAbs data tailStart i
  orNone (fieldOffset data abs slot)

/-- The entries of the tail-index start behind the count that the footer points to. -/
def tailStart (data : Bytes) : ℕ := leNat ((data.drop (data.length - 12)).take 8) + 4

/-- Where the fields of records are, an absent field marked as `batch_resolve_offsets` marks it. -/
def BatchAgrees (data : Bytes) (slot : ℕ) (indices : List ℕ) : Prop :=
  ∃ offsets, indices.mapM (recordOffset data (tailStart data) slot) = .ok offsets ∧
    batchResolveOffsets data (tailStart data) slot indices = .ok (offsets.map (·.getD 0xFFFFFFFF))

/-- The index has the field of every record, or no record has it. -/
def IndexAgrees (data : Bytes) (slot recordCount : ℕ) : Prop :=
  ∃ offsets, (List.range recordCount).mapM (recordOffset data (tailStart data) slot) = .ok offsets ∧
    ((∃ out, buildFieldIndex data (tailStart data) recordCount slot = .ok (some out) ∧ offsets = out.map some) ∨
      buildFieldIndex data (tailStart data) recordCount slot = .ok none ∧ ∀ o ∈ offsets, o = none)

/-- A record has the slot if the first one has it, and as many slots in front of it. -/
def SameLayout (slot : ℕ) (calls first : List Call) : Prop :=
  objectSlots (callCells calls) slot = objectSlots (callCells first) slot ∧
    slotRank (objectSlots (callCells calls)) slot = slotRank (objectSlots (callCells first)) slot

instance (slot : ℕ) (calls first : List Call) : Decidable (SameLayout slot calls first) := inferInstanceAs (Decidable (_ ∧ _))

/-! ## The walks over a mask -/

section

variable {d : Bytes} {pos k slot : ℕ} {p : ℕ → Bool}

/-- The walk of `field_offset` is the walk of the resolver. -/
theorem offsetLoop_eq (hd : d.length < 2 ^ 63) : ∀ (fuel pos : ℕ) (st : MaskState),
    offsetLoop d slot fuel pos st = maskLoop d slot fuel pos st
  | 0, _, _ => rfl
  | fuel + 1, pos, st => by
    rw [offsetLoop, maskLoop]
    by_cases hpos : pos < d.length
    · rw [ensure_of (by omega), ok_bind, index, Lib.get, List.getElem?_eq_getElem hpos, ofOption_some, ok_bind,
        checkedAdd_of (by omega), ok_bind]
      simp only [ok_bind, offsetLoop_eq hd fuel]
    · rw [ensure_not (by omega), Lib.get, List.getElem?_eq_none (by omega)]
      rfl

theorem skipLoop_eq (hd : d.length < 2 ^ 63) : ∀ (fuel pos : ℕ) (b : UInt8), skipLoop d fuel pos b = skipMask d fuel pos b
  | 0, _, _ => rfl
  | fuel + 1, pos, b => by
    rw [skipLoop, skipMask]
    by_cases hpos : pos < d.length
    · rw [ensure_of (by omega), ok_bind, index, Lib.get, List.getElem?_eq_getElem hpos, ofOption_some, ok_bind,
        checkedAdd_of (by omega), ok_bind]
      simp only [ok_bind, skipLoop_eq hd fuel]
    · rw [ensure_not (by omega), Lib.get, List.getElem?_eq_none (by omega)]
      rfl

/-- The walk over the first `n` bits of the byte of the slots from `c` on. -/
theorem foldl_layoutBit (p : ℕ → Bool) (more : Bool) (c slot : ℕ) : ∀ n ≤ 7,
    (List.range n).foldl (layoutBit (byteOfBits fun i => if i = 7 then more else p (c + i)) slot)
        ⟨c, slotRank p (min slot c), decide (slot < c) && p slot⟩ =
      ⟨c + n, slotRank p (min slot (c + n)), decide (slot < c + n) && p slot⟩
  | 0, _ => rfl
  | n + 1, hn => by
    have hbit : (byteOfBits fun i => if i = 7 then more else p (c + i)).toNat.testBit n = p (c + n) := by
      rw [testBit_byteOfBits _ (by omega), if_neg (by omega)]
    rw [List.range_succ, List.foldl_append, foldl_layoutBit p more c slot n (by omega), List.foldl_cons, List.foldl_nil,
      layoutBit, hbit, ← Nat.add_assoc]
    dsimp only
    rcases Nat.lt_trichotomy (c + n) slot with hlt | heq | hgt
    · -- a slot in front of the wanted one
      rw [if_neg (by omega), show min slot (c + n + 1) = c + n + 1 by omega, show min slot (c + n) = c + n by omega,
        decide_eq_false (by omega : ¬ slot < c + n), decide_eq_false (by omega : ¬ slot < c + n + 1), slotRank_succ]
      by_cases hp : p (c + n) = true
      · rw [if_pos ⟨hlt, hp⟩, if_pos hp]
      · rw [if_neg (fun h => hp h.2), if_neg hp]
        rfl
    · subst heq
      rw [if_pos rfl, Nat.min_self, show min (c + n) (c + n + 1) = c + n by omega, decide_eq_true (by omega : c + n < c + n + 1),
        Bool.true_and]
    · rw [if_neg (by omega), if_neg (by omega), show min slot (c + n + 1) = slot by omega, show min slot (c + n) = slot by omega,
        decide_eq_true hgt, decide_eq_true (by omega : slot < c + n + 1)]

/-- The walk over a whole mask. -/
theorem layoutLoop_maskBytes (hat : At d pos (maskBytes k p)) : ∀ m i fuel, i + m = k → 0 < m → m ≤ fuel →
    layoutLoop d slot fuel (pos + i) ⟨7 * i, slotRank p (min slot (7 * i)), decide (slot < 7 * i) && p slot⟩ =
      .ok (pos + k, ⟨7 * k, slotRank p (min slot (7 * k)), decide (slot < 7 * k) && p slot⟩)
  | 0, _, _, _, hm, _ => absurd hm (Nat.lt_irrefl 0)
  | m + 1, i, 0, _, _, hfuel => absurd hfuel (by omega)
  | m + 1, i, fuel + 1, hi, _, hfuel => by
    have hbyte := ofOption_eq_ok.mp (get_maskBytes hat (show i < k by omega))
    rw [layoutLoop, index, hbyte]
    dsimp only
    rw [ok_bind, foldl_layoutBit p _ (7 * i) slot 7 (Nat.le_refl 7), moreMask_byteOfBits]
    by_cases hlast : i + 1 < k
    · rw [if_pos (decide_eq_true hlast), Nat.add_assoc]
      exact layoutLoop_maskBytes hat m (i + 1) fuel (by omega) (by omega) (by omega)
    · obtain rfl : i + 1 = k := by omega
      rw [if_neg (by simp), Nat.add_assoc]
      rfl

/-- Any walk ends at the first byte without a continuation bit. -/
theorem layoutLoop_ok {stop : ℕ} {b : UInt8} (hb : d[stop]? = some b) (hlast : moreMask b = false) :
    ∀ (fuel pos : ℕ) (st : MaskState), pos ≤ stop → stop < pos + fuel → ∃ res, layoutLoop d slot fuel pos st = .ok res
  | 0, _, _, hle, hlt => absurd hlt (by omega)
  | fuel + 1, pos, st, hle, hlt => by
    have hstop := (List.getElem?_eq_some_iff.mp hb).1
    rw [layoutLoop, index, List.getElem?_eq_getElem (show pos < d.length by omega)]
    dsimp only
    rw [ok_bind]
    by_cases hmore : moreMask d[pos] = true
    · have hne : pos ≠ stop := by
        rintro rfl
        rw [List.getElem?_eq_getElem hstop] at hb
        rw [Option.some.inj hb, hlast] at hmore
        cases hmore
      rw [if_pos hmore]
      exact layoutLoop_ok hb hlast fuel (pos + 1) _ (by omega) (by omega)
    · rw [if_neg hmore]
      exact ⟨_, rfl⟩

end

/-! ## One record -/

theorem u32_of {n : ℕ} (h : n < 2 ^ 32) : u32 n = n := Nat.mod_eq_of_lt h

section

variable {d : Bytes} {off n slot o : ℕ} {cells : List (ℕ × Bytes)} {offsets : List ℕ}
  (hat : At d off (filledObject n cells offsets)) (hd : d.length < 2 ^ 32)

include hat hd

/-- `field_offset` of a present slot. -/
theorem fieldOffset_entry (hslot : objectSlots cells slot = true) (hmask : slot / 7 < bitmaskLen n)
    (hentry : offsets[slotRank (objectSlots cells) slot]? = some o) (ho : o < 65536) :
    fieldOffset d off slot = .ok (off + o) := by
  have hbits := filledObject_mask hat
  have hword := filledObject_entry hat hentry
  have hle := hword.le
  rw [leBytes_length] at hle
  have hloop := maskLoop_present hbits (by omega) (show slot < 7 * bitmaskLen n by omega) hslot (bitmaskLen n) 0 (d.length + 1)
    (by omega) (by omega) (by omega)
  have hskip := skipMask_maskBytes hbits (by omega) (bitmaskLen n - (slot / 7 + 1)) (slot / 7) (d.length + 1)
    (fun b => objectSlots cells (7 * (slot / 7) + b)) (by omega) (by omega)
  rw [Nat.mul_zero, slotRank_zero, Nat.add_zero] at hloop
  rw [fieldOffset]
  dsimp only
  rw [u32_of (by omega), ensure_of (by omega), ok_bind, offsetLoop_eq (by omega), hloop, ok_bind]
  dsimp only
  rw [skipLoop_eq (by omega), hskip, ok_bind,
    u32_of (show off + 8 + bitmaskLen n + slotRank (objectSlots cells) slot * 2 < 2 ^ 32 by omega), u32_of (by omega), ensure_of (by omega), ok_bind, readLE_leBytes hword (by omega) (by omega), ok_bind]

/-- `field_offset` of an absent slot. -/
theorem fieldOffset_absent (hslot : objectSlots cells slot = false) : fieldOffset d off slot = none' := by
  have hbits := filledObject_mask hat
  have hle := hbits.le
  have hpos : 0 < bitmaskLen n := Nat.lt_of_lt_of_le Nat.zero_lt_one (le_max_right _ _)
  rw [maskBytes_length] at hle
  have hloop := @maskLoop_absent _ _ _ _ hbits (by omega) slot (fun _ => hslot) (bitmaskLen n) 0 (d.length + 1) (by omega) hpos
    (by omega)
  rw [Nat.mul_zero, slotRank_zero, Nat.add_zero] at hloop
  rw [fieldOffset]
  dsimp only
  rw [u32_of (by omega), ensure_of (by omega), ok_bind, offsetLoop_eq (by omega), hloop, err_bind]

/-- The layout of record 0. -/
theorem computeFastLayout_of {tail : ℕ} (hrecord : recordAbs d tail 0 = .ok off) : computeFastLayout d tail slot =
    .ok ⟨bitmaskLen n, slotRank (objectSlots cells) (min slot (7 * bitmaskLen n)),
      decide (slot < 7 * bitmaskLen n) && objectSlots cells slot⟩ := by
  have hbits := filledObject_mask hat
  have hle := hbits.le
  have hpos : 0 < bitmaskLen n := Nat.lt_of_lt_of_le Nat.zero_lt_one (le_max_right _ _)
  rw [maskBytes_length] at hle
  have hloop := @layoutLoop_maskBytes _ _ _ slot _ hbits (bitmaskLen n) 0 (d.length + 1) (by omega) hpos (by omega)
  rw [Nat.mul_zero, Nat.add_zero, Nat.min_zero, slotRank_zero, decide_eq_false (Nat.not_lt_zero slot), Bool.false_and] at hloop
  rw [computeFastLayout, hrecord, ok_bind]
  dsimp only
  rw [u32_of (by omega), hloop, ok_bind]
  dsimp only
  rw [Nat.add_sub_cancel_left]

/-- The offset by a layout whose entry is that of the slot. -/
theorem layoutOffset_of {tail i : ℕ} {L : FastLayout} (hrecord : recordAbs d tail i = .ok off)
    (hlen : L.bitmaskLen = bitmaskLen n) (hentry : offsets[L.tableIdx]? = some o) (ho : o < 65536)
    (hroom : off + o < 2 ^ 32) : layoutOffset d tail L i = .ok (off + o) := by
  have hword := filledObject_entry hat hentry
  have hle := hword.le
  rw [leBytes_length] at hle
  rw [layoutOffset, hrecord, ok_bind, hlen, u32_of (by omega), show off + (8 + bitmaskLen n + L.tableIdx * 2) =
    off + 8 + bitmaskLen n + L.tableIdx * 2 by omega, readLE_leBytes hword (by omega) (by omega), ok_bind, u32_of hroom]

end

/-! ## A file -/

section

variable {keys : List String} {sigils : List UInt8} {records : List (List Call)} {objects : List Bytes} {d : Bytes}

/-- The entries of the tail-index, where the footer says. -/
theorem tailStart_eq (h : ObjectFile keys sigils objects d) (hd : d.length < 2 ^ 32) :
    tailStart d = sectorStart keys sigils + objects.flatten.length + 4 := by
  obtain ⟨-, hptr, hend⟩ := h.tail_at
  have hbytes := hptr.take_drop
  rw [leBytes_length] at hbytes
  rw [tailStart, hbytes, leNat_leBytes (by omega)]

theorem recordAbs_of (h : ObjectFile keys sigils objects d) (hd : d.length < 2 ^ 32) {i : ℕ} (hi : i < objects.length) :
    recordAbs d (tailStart d) i = .ok (sectorStart keys sigils + (objects.take i).flatten.length) := by
  obtain ⟨-, -, hend⟩ := h.tail_at
  have hentry := h.entry_at hi
  have hmono : (objects.take i).flatten.length ≤ objects.flatten.length := ((List.take_prefix _ _).sublist.flatten).length_le
  rw [Nat.mod_eq_of_lt (by omega)] at hentry
  rw [recordAbs, tailStart_eq h hd, readLE_leBytes hentry (by omega) (by omega), map_ok, u32_of (by omega)]

/-- The walk over what a file without records has in place of a first record ends in front of the tail-index. -/
theorem computeFastLayout_empty (h : ObjectFile keys sigils [] d) (hd : d.length < 2 ^ 32) (slot : ℕ) :
    ∃ L, computeFastLayout d (tailStart d) slot = .ok L := by
  obtain ⟨hcount, hptr, hend⟩ := h.tail_at
  rw [List.flatten_nil, show ([] : List UInt8).length = 0 from rfl, Nat.add_zero] at hcount hptr hend
  rw [show ([] : List Bytes).length = 0 from rfl] at hcount hend
  have hstart : 32 ≤ sectorStart keys sigils := Nat.le_add_right _ _
  have hzero : d[sectorStart keys sigils]? = some 0 := by
    obtain ⟨pre, post, rfl, hpre⟩ := hcount
    rw [List.append_assoc, List.getElem?_append_right (by omega), hpre, Nat.sub_self]
    rfl
  -- the bytes that are read are those of the footer, from the third on
  have hread : ∃ abs, recordAbs d (tailStart d) 0 = .ok abs ∧ abs + 8 ≤ sectorStart keys sigils := by
    have hword := readLE_word (ε := Unit) (show sectorStart keys sigils + 4 + 0 * 10 + 2 + 8 ≤ d.length by omega) (by omega)
    have hbytes := hptr.drop (show 2 ≤ (leBytes 8 (sectorStart keys sigils)).length by rw [leBytes_length]; decide)
    rw [show (leBytes 8 (sectorStart keys sigils)).drop 2 = leBytes 6 (sectorStart keys sigils / 256 / 256) from rfl] at hbytes
    obtain ⟨rest, hrest⟩ := hbytes.drop_eq
    have hnum : word d (sectorStart keys sigils + 4 + 0 * 10 + 2) 8 % 2 ^ 32 = sectorStart keys sigils / 256 / 256 := by
      rw [word, show sectorStart keys sigils + 4 + 0 * 10 + 2 = d.length - 12 + 2 by omega, hrest, List.take_append,
        leBytes_length, List.take_of_length_le (by rw [leBytes_length]; decide), leNat_append, leBytes_length,
        leNat_leBytes (by omega)]
      omega
    refine ⟨sectorStart keys sigils / 256 / 256, ?_, by omega⟩
    rw [recordAbs, tailStart_eq h hd, List.flatten_nil, List.length_nil, Nat.add_zero, hword, map_ok, u32, hnum]
  obtain ⟨abs, hrecord, hle⟩ := hread
  obtain ⟨res, hres⟩ := @layoutLoop_ok d slot _ _ hzero rfl (d.length + 1) (u32 (abs + 8)) ⟨0, 0, false⟩ (by
    rw [u32_of (by omega)]; exact hle) (by omega)
  rw [computeFastLayout, hrecord, ok_bind]
  dsimp only
  rw [hres, ok_bind]
  exact ⟨_, rfl⟩

/-- Record `i` is the object of some calls. -/
def FilledRecord (d : Bytes) (n i : ℕ) (calls : List Call) : Prop :=
  ∃ off offsets, recordAbs d (tailStart d) i = .ok off ∧ At d off (filledObject n (callCells calls) offsets) ∧
    offsets.length = calls.length ∧ ∀ o ∈ offsets, o < 65536 ∧ off + o + 8 ≤ d.length

theorem filledRecord_of (h : ObjectFile keys sigils objects d) (hd : d.length < 2 ^ 32)
    (hobjects : List.Forall₂ (FilledObject keys.length) records objects) {i : ℕ} {calls : List Call}
    (hi : records[i]? = some calls) : FilledRecord d keys.length i calls := by
  obtain ⟨hlen, offsets, hat, hcount, hbounds, -⟩ := h.filled_at hobjects hi
  have hlt := (List.getElem?_eq_some_iff.mp hi).1
  have hrecord := recordAbs_of h hd (i := i) (by rwa [← hobjects.length_eq])
  rw [hlen] at hrecord
  exact ⟨_, offsets, hrecord, hat, hcount, hbounds⟩

/-- By the layout of record 0, a record has the field where `field_offset` finds it, or neither finds it. -/
def LayoutFinds (d : Bytes) (slot : ℕ) (L : FastLayout) (i : ℕ) : Prop :=
  (L.present = true ∧ ∃ o, recordOffset d (tailStart d) slot i = .ok (some o) ∧ layoutOffset d (tailStart d) L i = .ok o) ∨
    (L.present = false ∧ recordOffset d (tailStart d) slot i = .ok none)

/-- The layout of the first record is right for a record that is laid out alike. -/
theorem layout_finds {n i slot : ℕ} {calls first : List Call} (hd : d.length < 2 ^ 32) (hfirst : FilledRecord d n 0 first)
    (hcalls : FilledRecord d n i calls) (hsame : SameLayout slot calls first)
    (hmask : objectSlots (callCells first) slot = true → slot / 7 < bitmaskLen n) {L : FastLayout}
    (hL : computeFastLayout d (tailStart d) slot = .ok L) : LayoutFinds d slot L i := by
  obtain ⟨off₀, offsets₀, hrecord₀, hat₀, -, -⟩ := hfirst
  obtain ⟨off, offsets, hrecord, hat, hcount, hbounds⟩ := hcalls
  obtain ⟨hslot, hrank⟩ := hsame
  rw [computeFastLayout_of hat₀ hd hrecord₀] at hL
  cases hL
  by_cases hpresent : objectSlots (callCells first) slot = true
  · -- the entry has the same number in both tables
    have hlt := hmask hpresent
    have hmin : min slot (7 * bitmaskLen n) = slot := by omega
    have hroom : slotRank (objectSlots (callCells calls)) slot < offsets.length := by
      rw [hcount, ← callCells_length]
      exact objectSlots_rank_lt (hslot.trans hpresent)
    have hentry := List.getElem?_eq_getElem hroom
    obtain ⟨hshort, hle⟩ := hbounds _ (List.getElem_mem hroom)
    refine .inl ⟨?_, _, ?_, layoutOffset_of hat hd hrecord rfl ?_ hshort (by omega)⟩
    · rw [hpresent, Bool.and_true, decide_eq_true_iff]
      omega
    · rw [recordOffset, hrecord, ok_bind, fieldOffset_entry hat hd (hslot.trans hpresent) hlt hentry hshort]
      rfl
    · dsimp only
      rw [hmin, ← hrank, hentry]
  · have habsent := Bool.eq_false_iff.mpr hpresent
    refine .inr ⟨?_, ?_⟩
    · rw [habsent, Bool.and_false]
    · rw [recordOffset, hrecord, ok_bind, fieldOffset_absent hat hd (hslot.trans habsent)]
      rfl

/-- A layout that is right for each of some records is right for all of them. -/
theorem lookups_agree {slot : ℕ} {L : FastLayout} {indices : List ℕ} (hall : ∀ i ∈ indices, LayoutFinds d slot L i) :
    (L.present = true ∧ ∃ outs, indices.mapM (layoutOffset d (tailStart d) L) = .ok outs ∧
      indices.mapM (recordOffset d (tailStart d) slot) = .ok (outs.map some)) ∨
      (L.present = false ∧ indices.mapM (recordOffset d (tailStart d) slot) = .ok (indices.map fun _ => none)) := by
  induction indices with
  | nil =>
    cases L.present with
    | true => exact .inl ⟨rfl, [], rfl, rfl⟩
    | false => exact .inr ⟨rfl, rfl⟩
  | cons i indices ih =>
    rw [List.mapM_cons, List.mapM_cons]
    rcases ih fun j hj => hall j (List.mem_cons_of_mem i hj) with ⟨hyes, outs, houts, hoffsets⟩ | ⟨hno, hoffsets⟩
    · rcases hall i List.mem_cons_self with ⟨-, o, hrecord, hlayout⟩ | ⟨hno, -⟩
      · refine .inl ⟨hyes, o :: outs, ?_, ?_⟩
        · rw [hlayout, ok_bind, houts, ok_bind, pure_eq]
        · rw [hrecord, ok_bind, hoffsets, ok_bind, pure_eq, List.map_cons]
      · rw [hyes] at hno
        cases hno
    · rcases hall i List.mem_cons_self with ⟨hyes, -⟩ | ⟨-, hrecord⟩
      · rw [hno] at hyes
        cases hyes
      · refine .inr ⟨hno, ?_⟩
        rw [hrecord, ok_bind, hoffsets, ok_bind, pure_eq, List.map_cons]

/-- The batch lookups, from the layout. -/
theorem agrees_of_layout {slot : ℕ} {indices : List ℕ} {L : FastLayout}
    (hL : computeFastLayout d (tailStart d) slot = .ok L) (hall : ∀ i ∈ indices, LayoutFinds d slot L i) :
    BatchAgrees d slot indices ∧ ∀ n, indices = List.range n → IndexAgrees d slot n := by
  rcases lookups_agree hall with ⟨hpresent, outs, houts, hoffsets⟩ | ⟨habsent, hoffsets⟩
  · refine ⟨⟨_, hoffsets, ?_⟩, ?_⟩
    · rw [batchResolveOffsets, hL, ok_bind, hpresent, if_neg (by decide), houts, List.map_map]
      exact congrArg _ (List.map_id' outs).symm
    · rintro n rfl
      refine ⟨_, hoffsets, .inl ⟨outs, ?_, rfl⟩⟩
      rw [buildFieldIndex, hL, ok_bind, hpresent, if_neg (by decide), houts, ok_bind]
  · refine ⟨⟨_, hoffsets, ?_⟩, ?_⟩
    · rw [batchResolveOffsets, hL, ok_bind, habsent, if_pos (by decide), List.map_map]
      rfl
    · rintro n rfl
      refine ⟨_, hoffsets, .inr ⟨?_, ?_⟩⟩
      · rw [buildFieldIndex, hL, ok_bind, habsent, if_pos (by decide)]
      · intro o ho
        obtain ⟨i, -, rfl⟩ := List.mem_map.mp ho
        rfl

end

/-- The batch lookups agree with the lookups in single records that are laid out like the first one. -/
theorem batch_agrees {sorter : SlotSort} {keys : List String} {records : List (List Call)} {file : Slice} (slot : ℕ)
    (hfile : NxsWriter.writeFile sorter keys records = .ok file) (hsize : file.bytes.length < 2 ^ 32) :
    (∀ indices : List ℕ, (∀ i ∈ indices, ∃ calls first, records[i]? = some calls ∧ records[0]? = some first ∧
      SameLayout slot calls first) → BatchAgrees file.bytes slot indices) ∧
    ((∀ calls ∈ records, ∀ first, records[0]? = some first → SameLayout slot calls first) →
      IndexAgrees file.bytes slot records.length) := by
  obtain ⟨w, hrun, hfinish⟩ := bind_eq_ok.mp hfile
  obtain ⟨objects, hkept, hobjects, hmask⟩ := writeObjects_filled hrun
  have hobjectFile := finish_objects hkept.packed hfinish
  rw [hkept.keys_eq] at hobjectFile
  cases hfirst : records[0]? with
  | none =>
    -- there is no record to look into
    obtain rfl : records = [] := List.length_eq_zero_iff.mp (Nat.le_zero.mp (List.getElem?_eq_none_iff.mp hfirst))
    cases hobjects
    obtain ⟨L, hL⟩ := computeFastLayout_empty hobjectFile hsize slot
    have hnone := agrees_of_layout hL fun i (hi : i ∈ ([] : List ℕ)) => absurd hi List.not_mem_nil
    refine ⟨fun indices hindices => ?_, fun _ => hnone.2 0 rfl⟩
    obtain rfl : indices = [] := by
      refine List.eq_nil_iff_forall_not_mem.mpr fun i hi => ?_
      obtain ⟨calls, first, hcalls, -⟩ := hindices i hi
      cases hcalls
    exact hnone.1
  | some first =>
    have hfirstRecord := filledRecord_of hobjectFile hsize hobjects hfirst
    have hslot : objectSlots (callCells first) slot = true → slot / 7 < bitmaskLen keys.length := by
      intro hpresent
      obtain ⟨c, hc, hcs⟩ := List.any_eq_true.mp hpresent
      obtain ⟨call, hcall, rfl⟩ := List.mem_map.mp hc
      rw [← beq_iff_eq.mp hcs]
      exact hmask first (List.mem_of_getElem? hfirst) call hcall
    obtain ⟨off, offsets, hrecord, hat, -⟩ := id hfirstRecord
    have hL := @computeFastLayout_of _ _ _ slot _ _ hat hsize _ hrecord
    refine ⟨fun indices hindices => ?_, fun hall => ?_⟩
    · refine (agrees_of_layout hL fun i hi => ?_).1
      obtain ⟨calls, first', hcalls, hfirst', hsame⟩ := hindices i hi
      cases hfirst'
      exact layout_finds hsize hfirstRecord (filledRecord_of hobjectFile hsize hobjects hcalls) hsame hslot hL
    · refine (agrees_of_layout hL fun i hi => ?_).2 _ rfl
      have hlt := List.mem_range.mp hi
      exact layout_finds hsize hfirstRecord (filledRecord_of hobjectFile hsize hobjects (List.getElem?_eq_getElem hlt))
        (hall _ (List.getElem_mem hlt) first rfl) hslot hL

/-- Two records with the same slots. -/
def likeRecords : List (List Call) := [[⟨0, .i64 7⟩, ⟨1, .bool true⟩], [⟨0, .i64 8⟩, ⟨1, .bool false⟩]]

theorem batch_agrees_like : ∃ file, NxsWriter.writeFile SlotSort.stable ["a", "b"] likeRecords = .ok file ∧
    BatchAgrees file.bytes 1 [1, 0] ∧ IndexAgrees file.bytes 1 2 := by
  have hrun : (NxsWriter.writeFile SlotSort.stable ["a", "b"] likeRecords >>= fun file =>
      .ok (decide (file.bytes.length < 2 ^ 32))) = .ok true := by decide +kernel
  obtain ⟨file, hfile, hsize⟩ := bind_eq_ok.mp hrun
  obtain ⟨hbatch, hindex⟩ := batch_agrees 1 hfile (of_decide_eq_true (Outcome.ok.inj hsize))
  refine ⟨file, hfile, hbatch [1, 0] fun i hi => ?_, hindex fun calls hcalls first hfirst => ?_⟩
  · simp only [List.mem_cons, List.not_mem_nil, or_false] at hi
    rcases hi with rfl | rfl
    · exact ⟨_, _, rfl, rfl, by decide⟩
    · exact ⟨_, _, rfl, rfl, by decide⟩
  · cases hfirst
    simp only [likeRecords, List.mem_cons, List.not_mem_nil, or_false] at hcalls
    rcases hcalls with rfl | rfl <;> decide

/-- A record without the first field, behind one that has it. -/
def unlikeRecords : List (List Call) := [[⟨0, .i64 7⟩, ⟨1, .bool true⟩], [⟨1, .bool false⟩]]

/-- The second record is asked for an entry that its offset table does not have. -/
theorem batch_disagrees : ∃ file, NxsWriter.writeFile SlotSort.stable ["a", "b"] unlikeRecords = .ok file ∧
    file.bytes.length < 2 ^ 32 ∧ ¬ BatchAgrees file.bytes 1 [0, 1] ∧ ¬ IndexAgrees file.bytes 1 2 := by
  have hrun : (NxsWriter.writeFile SlotSort.stable ["a", "b"] unlikeRecords >>= fun file =>
      .ok (decide (file.bytes.length < 2 ^ 32), [0, 1].mapM (recordOffset file.bytes (tailStart file.bytes) 1))) =
      .ok (true, .ok [some 64, some 88]) := by decide +kernel
  have hlookups : (NxsWriter.writeFile SlotSort.stable ["a", "b"] unlikeRecords >>= fun file =>
      .ok (batchResolveOffsets file.bytes (tailStart file.bytes) 1 [0, 1], buildFieldIndex file.bytes (tailStart file.bytes) 2 1)) =
      .ok (.ok [64, 72], .ok (some [64, 72])) := by decide +kernel
  obtain ⟨file, hfile, hrun⟩ := bind_eq_ok.mp hrun
  rw [hfile, ok_bind] at hlookups
  obtain ⟨hsize, hrecords⟩ := Prod.mk.inj (Outcome.ok.inj hrun)
  obtain ⟨hbatch, hindex⟩ := Prod.mk.inj (Outcome.ok.inj hlookups)
  refine ⟨file, hfile, of_decide_eq_true hsize, ?_, ?_⟩
  · rintro ⟨offsets, hoffsets, hbatch'⟩
    rw [hrecords] at hoffsets
    cases hoffsets
    rw [hbatch] at hbatch'
    cases hbatch'
  · rintro ⟨offsets, hoffsets, ⟨out, hout, heq⟩ | ⟨hout, -⟩⟩
    · rw [show List.range 2 = [0, 1] from rfl, hrecords] at hoffsets
      cases hoffsets
      rw [hindex] at hout
      cases hout
      cases heq
    · rw [hindex] at hout
      cases hout

end NxsReducers

end Nyxis

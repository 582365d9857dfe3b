import Nyxis.PageFraming
import Nyxis.PaxFile
import Nyxis.Query

/-!
# PaxStreamReader — reading the pages of a PAX file that is still being written

`PaxStreamReader` goes over the complete pages of a buffer; a `PaxPageView` finds the column of a field on its page by
counting eight bytes a record for every field in front, also for those of variable length.

* `PaxPageView.terms_eq`: the terms of a column, where the fields in front are of fixed width.
* `completePages_prefix`: the pages that are found in a prefix of a file.
-/

namespace Nyxis

open Lib Lib.Outcome

/-! ## Pages -/

structure PaxPageView where
  offset : ℕ
  pageIndex : ℕ
  recordStart : ℕ
  recordCount : ℕ
  fieldCount : ℕ
  data : Bytes
  deriving DecidableEq, Repr

/-- `body += bm_len + rc * 8` for each of `n` fields; `rc` is a `u32`, so that the right side does not overflow. -/
def skipFixed (rc : ℕ) : ℕ → ℕ → Res ℕ
  | 0, body => .ok body
  | n + 1, body => do
    let bmLen ← nullBitmapLen rc
    let body ← usizeAdd body (bmLen + rc * 8)
    skipFixed rc n body

namespace PaxPageView

/-- The null bitmap and the values of a field. -/
def fieldParts (v : PaxPageView) (slot : ℕ) : Res (Bytes × Bytes) := do
  let rc := v.recordCount
  ensure (¬ slot ≥ v.fieldCount) .outOfBounds
  let body ← usizeAdd v.offset 24
  let body ← skipFixed rc slot body
  let bmLen ← nullBitmapLen rc
  let stop ← usizeAdd body (bmLen + rc * 8)
  ensure (¬ stop > v.data.length) .outOfBounds
  let bm ← range v.data body (body + bmLen)
  let vals ← range v.data (body + bmLen) stop
  .ok (bm, vals)

/-- The eight bytes of a cell, where it is populated. -/
def getWord (v : PaxPageView) (localRecord slot : ℕ) : Opt ℕ := do
  let (bm, vals) ← (v.fieldParts slot).toOpt
  let set ← bitAt bm localRecord
  ensure (set = true) ()
  let off ← usizeMul localRecord 8
  getLE vals off 8

/-- A term of the sum over a page. -/
def term (bm vals : Bytes) (i : ℕ) : Opt (Option F64) := do
  let set ← bitAt bm i
  if set then do
    let o ← usizeMul i 8
    some <$> f64Of <$> readLE vals o 8
  else .ok none

/-- What the page adds to the sum over the column of a field. -/
def terms (v : PaxPageView) (slot : ℕ) : Opt (List F64) := do
  let (bm, vals) ← (v.fieldParts slot).toOpt
  (List.range v.recordCount).filterMapM (term bm vals)

end PaxPageView

def parsePageView (d : Bytes) (off : ℕ) : Opt PaxPageView := do
  let pageIndex ← readLE d (off + 4) 4
  let recordStart ← readLE d (off + 8) 8
  let recordCount ← readLE d (off + 16) 4
  let fieldCount ← readLE d (off + 20) 2
  .ok ⟨off, pageIndex, recordStart, recordCount, fieldCount, d⟩

/-! ## The reader -/

structure PaxStreamReader where
  data : Bytes
  keys : List String
  keySigils : List UInt8
  dataStart : ℕ
  pageCursor : ℕ
  isSealed : Bool
  deriving DecidableEq, Repr

namespace PaxStreamReader

/-- The buffer ends as a sealed file does. -/
def footerSeals (d : Bytes) (preambleTail : ℕ) : Res Bool :=
  if d.length < 28 + 4 then .ok false
  else do
    let magic ← readLE d (d.length - 4) 4
    if magic ≠ MAGIC_FOOTER then .ok false
    else if preambleTail ≠ 0 then .ok true
    else do
      let tp ← readLE d (d.length - 28) 8
      .ok (decide (tp > 0 ∧ tp < d.length ∧ d.length - tp ≥ 28))

/-- `PaxStreamReader::open`. -/
def new (d : Bytes) : Res PaxStreamReader := do
  ensure (¬ d.length < 32) .outOfBounds
  let magic ← readLE d 0 4
  ensure (magic = MAGIC_FILE) .badMagic
  let flags ← readLE d 6 2
  ensure (hasFlag flags FLAG_PAX) .unsupportedLayout
  let preambleTail ← readLE d 16 8
  ensure (hasFlag flags FLAG_SCHEMA_EMBEDDED) (.parseError "PAX stream requires FLAG_SCHEMA_EMBEDDED")
  let (keys, keySigils, dataStart) ← parseSchema d 32
  let isSealed ← footerSeals d preambleTail
  ensure (¬ (isSealed = false ∧ preambleTail ≠ 0))
    (.parseError "PAX stream: preamble tail offset set before seal")
  .ok ⟨d, keys, keySigils, dataStart, dataStart, isSealed⟩

variable (s : PaxStreamReader)

/-- `key_index` maps a key to its last position. -/
def slot (key : String) : Opt ℕ :=
  if key ∈ s.keys then .ok (s.keys.length - 1 - s.keys.reverse.idxOf key) else none'

/-- The page at the cursor and the reader behind it, if the page is complete. -/
def pollNextPage : Opt (PaxPageView × PaxStreamReader) := do
  let stop ← completePageEnd s.data s.pageCursor s.keySigils
  let view ← parsePageView s.data s.pageCursor
  .ok (view, { s with pageCursor := stop })

/-- The pages that polling yields until there is none; the first argument bounds their number. -/
def pollPages : ℕ → PaxStreamReader → Opt (List PaxPageView)
  | 0, _ => .ok []
  | fuel + 1, s =>
    match s.pollNextPage with
    | .ok (view, s') => do
      let views ← pollPages fuel s'
      .ok (view :: views)
    | .err _ => .ok []
    | .panic => .panic

/-- The complete pages, which all loops of the reader go over.  A page has more than one byte. -/
def completePages : Opt (List PaxPageView) := pollPages (s.data.length + 1) { s with pageCursor := s.dataStart }

def completeRecordCount : Opt ℕ := do
  let views ← s.completePages
  views.foldlM (fun n view => usizeAdd n view.recordCount) 0

/-- The numbers that `col_sum_f64_complete_pages` adds up, of which there must be one. -/
def colSumTerms (key : String) : Opt (List F64) := do
  let slot ← s.slot key
  let views ← s.completePages
  let terms ← views.mapM fun view => view.terms slot
  ensure (terms.flatten ≠ []) ()
  .ok terms.flatten

/-- `get_f64` of a page. -/
def getF64 (view : PaxPageView) (localRecord : ℕ) (key : String) : Opt F64 := do
  let slot ← s.slot key
  f64Of <$> view.getWord localRecord slot

/-- `get_i64` of a page. -/
def getI64 (view : PaxPageView) (localRecord : ℕ) (key : String) : Opt Int64 := do
  let slot ← s.slot key
  i64Of <$> view.getWord localRecord slot

end PaxStreamReader

/-! ## What a page view reads -/

/-- Bit `j` of the bitmap at `place`. -/
def bitOf (d : Bytes) (place j : ℕ) : Bool := (word d (place + j / 8) 1).testBit (j % 8)

theorem bitAt_slice {ε : Type} {d : Bytes} {place n j : ℕ} (hroom : place + n ≤ d.length) (hj : j / 8 < n) :
    (bitAt ((d.drop place).take n) j : Outcome ε Bool) = .ok (bitOf d place j) := by
  have hlt : place + j / 8 < d.length := by omega
  have hget : ((d.drop place).take n)[j / 8]? = some d[place + j / 8] := by
    rw [List.getElem?_take_of_lt hj, List.getElem?_drop, List.getElem?_eq_getElem hlt]
  have hword : word d (place + j / 8) 1 = d[place + j / 8].toNat := by
    rw [word, List.drop_eq_getElem_cons hlt, List.take_succ_cons, List.take_zero]
    exact Nat.add_zero _
  rw [bitAt, index, hget, bitOf, hword]
  rfl

theorem skipFixed_eq {rc : ℕ} (hrc : rc < 2 ^ 32) : ∀ {n body : ℕ},
    body + n * (nullBitmapBytes rc + rc * 8) < 2 ^ 64 →
    skipFixed rc n body = .ok (body + n * (nullBitmapBytes rc + rc * 8))
  | 0, body, _ => by rw [skipFixed, Nat.zero_mul, Nat.add_zero]
  | n + 1, body, h => by
    rw [Nat.add_mul, Nat.one_mul] at h ⊢
    rw [skipFixed, nullBitmapLen_of (by omega), ok_bind, usizeAdd_of (by omega), ok_bind, skipFixed_eq hrc (by omega)]
    congr 1
    omega

namespace PaxPageView

/-- Where the bitmap of a field would be if every field in front had eight bytes a record. -/
def place (v : PaxPageView) (slot : ℕ) : ℕ := v.offset + 24 + slot * (nullBitmapBytes v.recordCount + v.recordCount * 8)

/-- Where its values would be. -/
def valuesPlace (v : PaxPageView) (slot : ℕ) : ℕ := v.place slot + nullBitmapBytes v.recordCount

/-- The place is inside the buffer. -/
def Room (v : PaxPageView) (slot : ℕ) : Prop := v.valuesPlace slot + v.recordCount * 8 ≤ v.data.length

instance (v : PaxPageView) (slot : ℕ) : Decidable (v.Room slot) := inferInstanceAs (Decidable (_ ≤ _))

/-- A view of a page that fits the buffer. -/
structure Fits (v : PaxPageView) : Prop where
  small : v.data.length < 2 ^ 63
  offset : v.offset < 2 ^ 63
  recordCount : v.recordCount < 2 ^ 32
  fieldCount : v.fieldCount < 65536

variable {v : PaxPageView} {slot : ℕ}

theorem fieldParts_eq (hv : v.Fits) (hslot : slot < v.fieldCount) : v.fieldParts slot =
    if v.Room slot then .ok ((v.data.drop (v.place slot)).take (nullBitmapBytes v.recordCount),
      (v.data.drop (v.valuesPlace slot)).take (v.recordCount * 8)) else .err .outOfBounds := by
  have hsmall := hv.small
  have hoff := hv.offset
  have hrc := hv.recordCount
  have hbm := le_nullBitmapBytes v.recordCount
  have hwalk : slot * (nullBitmapBytes v.recordCount + v.recordCount * 8) ≤ 65536 * 2 ^ 40 :=
    Nat.mul_le_mul (by have := hv.fieldCount; omega) (by omega)
  rw [fieldParts]
  rw [ensure_of (by omega), ok_bind, usizeAdd_of (by omega), ok_bind, skipFixed_eq hrc (by omega), ok_bind,
    nullBitmapLen_of (by omega), ok_bind, usizeAdd_of (by omega), ok_bind, ← place]
  by_cases hroom : v.Room slot
  · have hend := hroom
    rw [Room, valuesPlace] at hend
    have hbits : v.valuesPlace slot - v.place slot = nullBitmapBytes v.recordCount := Nat.add_sub_cancel_left ..
    have hvals : v.place slot + (nullBitmapBytes v.recordCount + v.recordCount * 8) - v.valuesPlace slot =
        v.recordCount * 8 := by
      rw [valuesPlace]
      omega
    rw [ensure_of (by omega), ok_bind, range_of (by omega) (by omega), ok_bind, range_of (by omega) (by omega), ok_bind,
      if_pos hroom, ← valuesPlace, hbits, hvals]
  · have hend := hroom
    rw [Room, valuesPlace] at hend
    rw [ensure_not (by omega), err_bind, if_neg hroom]

/-- What is read of a cell. -/
theorem getWord_eq (hv : v.Fits) (hslot : slot < v.fieldCount) {j : ℕ} (hj : j < v.recordCount) : v.getWord j slot =
    if v.Room slot ∧ bitOf v.data (v.place slot) j = true then .ok (word v.data (v.valuesPlace slot + j * 8) 8)
    else none' := by
  have hsmall := hv.small
  have hrc := hv.recordCount
  have hbm := nullBitmapBytes_le v.recordCount
  rw [getWord, fieldParts_eq hv hslot]
  by_cases hroom : v.Room slot
  · have hend := hroom
    rw [Room, valuesPlace] at hend
    have hvals : ((v.data.drop (v.valuesPlace slot)).take (v.recordCount * 8)).length = v.recordCount * 8 := by
      rw [List.length_take, List.length_drop, valuesPlace]
      omega
    rw [if_pos hroom, toOpt_ok, ok_bind]
    dsimp only
    rw [bitAt_slice (by omega) (by omega), ok_bind]
    by_cases hbit : bitOf v.data (v.place slot) j = true
    · rw [ensure_of hbit, ok_bind, usizeMul, if_pos (by omega), ok_bind, getLE_word (by omega) (by omega),
        word_slice (by omega), if_pos ⟨hroom, hbit⟩]
    · rw [ensure_not hbit, err_bind, if_neg fun h => hbit h.2]
  · rw [if_neg hroom, if_neg fun h => hroom h.1]
    rfl

/-- What is added to the sum. -/
theorem terms_eq (hv : v.Fits) (hslot : slot < v.fieldCount) : v.terms slot =
    if v.Room slot then .ok ((List.range v.recordCount).filterMap fun j =>
      if bitOf v.data (v.place slot) j then some (f64Of (word v.data (v.valuesPlace slot + j * 8) 8)) else none)
    else none' := by
  have hsmall := hv.small
  have hrc := hv.recordCount
  have hbm := nullBitmapBytes_le v.recordCount
  rw [terms, fieldParts_eq hv hslot]
  by_cases hroom : v.Room slot
  · have hend := hroom
    rw [Room, valuesPlace] at hend
    have hvals : ((v.data.drop (v.valuesPlace slot)).take (v.recordCount * 8)).length = v.recordCount * 8 := by
      rw [List.length_take, List.length_drop, valuesPlace]
      omega
    rw [if_pos hroom, if_pos hroom, toOpt_ok, ok_bind]
    dsimp only
    refine filterMapM_ok fun j hj => ?_
    rw [List.mem_range] at hj
    rw [term, bitAt_slice (by omega) (by omega), ok_bind]
    split
    · rw [usizeMul, if_pos (by omega), ok_bind, readLE_word (by omega) (by omega), word_slice (by omega)]
      rfl
    · rfl
  · rw [if_neg hroom, if_neg hroom]
    rfl

end PaxPageView

/-! ## Where the pages are -/

/-- Where page `k` starts; behind the last page, where the tail-index does. -/
def pageOffset (base : ℕ) (st : PaxPages) (k : ℕ) : ℕ :=
  match st.pages[k]? with
  | some page => page.pageOffset
  | none => base + st.data.length

namespace Emitted

variable {base fieldCount : ℕ} {sigils : List UInt8} {gs : List (List RecordRow)} {st : PaxPages}

theorem data_dvd (h : Emitted base fieldCount sigils gs st) : 8 ∣ st.data.length := by
  induction h with
  | nil => exact Nat.dvd_zero 8
  | snoc h hg he ih =>
    obtain ⟨page, henc, -, rfl⟩ := (emitPage_eq_ok hg).mp he
    obtain ⟨cols, -, rfl⟩ := encodePage_eq_ok.mp henc
    rw [List.length_append]
    exact Nat.dvd_add ih (padTo_dvd (by decide) _)

theorem pageOffset_zero (h : Emitted base fieldCount sigils gs st) : pageOffset base st 0 = base := by
  induction h with
  | nil => rfl
  | @snoc gs st st' g h hg he ih =>
    obtain ⟨page, henc, -, rfl⟩ := (emitPage_eq_ok hg).mp he
    obtain ⟨-, hlen, -, -⟩ := h.counts
    unfold pageOffset at ih ⊢
    by_cases hgs : gs.length = 0
    · have hnil : st.pages = [] := List.eq_nil_of_length_eq_zero (by omega)
      rw [hnil] at ih ⊢
      exact ih
    · rw [List.getElem?_eq_getElem (by omega)] at ih
      rw [List.getElem?_append_left (by omega), List.getElem?_eq_getElem (by omega)]
      exact ih

/-- Page `k`, its entry, and the page or the tail-index behind it. -/
theorem span (h : Emitted base fieldCount sigils gs st) {k : ℕ} {g : List RecordRow} (hk : gs[k]? = some g) :
    ∃ page off, encodePage k (groupStart gs k) g.length fieldCount sigils g = .ok page ∧
      st.pages[k]? = some ⟨k, groupStart gs k, g.length, base + off, page.length % 2 ^ 32⟩ ∧
      At st.data off page ∧ 8 ∣ off ∧ pageOffset base st (k + 1) = base + off + page.length := by
  induction h with
  | nil => simp at hk
  | @snoc gs st st' g' h hg he ih =>
    obtain ⟨page', henc, hlt, rfl⟩ := (emitPage_eq_ok hg).mp he
    obtain ⟨hidx, hlen, hstart, -⟩ := h.counts
    by_cases hlast : k < gs.length
    · rw [List.getElem?_append_left hlast] at hk
      obtain ⟨page, off, hp, hentry, hat, h8, hnext⟩ := ih hk
      rw [groupStart_append_left (by omega)]
      refine ⟨page, off, hp, ?_, hat.append_right page', h8, ?_⟩
      · rw [List.getElem?_append_left (by omega), hentry]
      · rw [← hnext, pageOffset, pageOffset]
        by_cases hmore : k + 1 < st.pages.length
        · rw [List.getElem?_append_left hmore, List.getElem?_eq_getElem hmore]
        · rw [List.getElem?_append_right (by omega), List.getElem?_eq_none (l := st.pages) (by omega),
            show k + 1 - st.pages.length = 0 by omega]
          rfl
    · rw [List.getElem?_append_right (by omega), List.getElem?_singleton] at hk
      split at hk
      · obtain rfl : k = gs.length := by omega
        obtain rfl : g' = g := by simpa using hk
        rw [groupStart_append_left (le_refl _), groupStart_length]
        rw [hidx, hstart] at henc
        refine ⟨page', st.data.length, henc, ?_, ⟨st.data, [], by simp, rfl⟩, h.data_dvd, ?_⟩
        · rw [List.getElem?_append_right (by omega), hlen, hidx, hstart]
          simp
        · rw [pageOffset, List.getElem?_eq_none (by simp; omega)]
          dsimp only
          rw [List.length_append, Nat.add_assoc]
      · cases hk

end Emitted

/-- `file` is complete with the pages `st` of `gs`.  A stream that was written page by page has no position of the
tail-index in its preamble until it is patched in. -/
structure SealedPax (keys : List String) (sigils : List UInt8) (gs : List (List RecordRow)) (st : PaxPages)
    (preambleTail : ℕ) (file : Slice) : Prop where
  keys_lt : keys.length < 65536
  nulFree : ∀ k ∈ keys, NulFree k
  sigils_length : sigils.length = keys.length
  sigils_ne : (0 : UInt8) ∉ sigils
  emitted : Emitted (32 + (buildSchema keys sigils).length) keys.length sigils gs st
  tail : preambleTail = 0 ∨ preambleTail = 32 + (buildSchema keys sigils).length + st.data.length
  bytes : ∃ hash pageSize, file.bytes = preamble VERSION (FLAG_SCHEMA_EMBEDDED ||| FLAG_PAX) hash preambleTail ++
    buildSchema keys sigils ++ st.data ++ buildPaxTail st.pages
      (32 + (buildSchema keys sigils).length + st.data.length) gs.flatten.length pageSize

namespace SealedPax

variable {keys : List String} {sigils : List UInt8} {gs : List (List RecordRow)} {st : PaxPages} {preambleTail : ℕ}
  {file : Slice}

/-- The sectors of a file. -/
theorem sectors (h : SealedPax keys sigils gs st preambleTail file) :
    (∃ hash, At file.bytes 0 (preamble VERSION (FLAG_SCHEMA_EMBEDDED ||| FLAG_PAX) hash preambleTail)) ∧
    At file.bytes 32 (buildSchema keys sigils) ∧ At file.bytes (32 + (buildSchema keys sigils).length) st.data ∧
    ∃ pageSize, At file.bytes (32 + (buildSchema keys sigils).length + st.data.length) (buildPaxTail st.pages
        (32 + (buildSchema keys sigils).length + st.data.length) gs.flatten.length pageSize) ∧
      file.bytes.length = 32 + (buildSchema keys sigils).length + st.data.length +
        (buildPaxTail st.pages (32 + (buildSchema keys sigils).length + st.data.length) gs.flatten.length
          pageSize).length := by
  obtain ⟨hash, pageSize, hbytes⟩ := h.bytes
  have hself := at_self file.bytes
  conv at hself => arg 3; rw [hbytes]
  rw [at_append, at_append, at_append] at hself
  obtain ⟨⟨⟨hpre, hschema⟩, hdata⟩, htail⟩ := hself
  simp only [List.length_append, preamble_length, Nat.zero_add] at hschema hdata htail
  refine ⟨⟨hash, hpre⟩, hschema, hdata, pageSize, htail, ?_⟩
  rw [hbytes]
  simp only [List.length_append, preamble_length]

/-- The buffer ends with the magic number of a sealed file. -/
def EndsSealed (d : Bytes) : Prop := word d (d.length - 4) 4 = MAGIC_FOOTER

instance (d : Bytes) : Decidable (EndsSealed d) := inferInstanceAs (Decidable (_ = _))

/-- The end of the buffer is looked at without an error, and counts as sealed where the preamble names a tail-index. -/
theorem footerSeals_ok {d : Bytes} (hsmall : d.length < 2 ^ 63) (hroom : 32 ≤ d.length) (preambleTail : ℕ) :
    ∃ b, PaxStreamReader.footerSeals d preambleTail = .ok b ∧ (preambleTail ≠ 0 → (b = true ↔ EndsSealed d)) := by
  unfold PaxStreamReader.footerSeals EndsSealed
  rw [if_neg (by omega), readLE_word (by omega) hsmall, ok_bind]
  by_cases hmagic : word d (d.length - 4) 4 = MAGIC_FOOTER
  · rw [if_neg (by simp [hmagic])]
    by_cases htail : preambleTail = 0
    · rw [if_neg (by simp [htail]), readLE_word (by omega) hsmall, ok_bind]
      exact ⟨_, rfl, fun hne => absurd htail hne⟩
    · rw [if_pos htail]
      exact ⟨true, rfl, fun _ => by simp [hmagic]⟩
  · rw [if_pos hmagic]
    exact ⟨false, rfl, fun _ => by simp [hmagic]⟩

/-- A prefix that reaches behind the schema is opened, unless its preamble names a tail-index that is not there. -/
theorem new_prefix (h : SealedPax keys sigils gs st preambleTail file) {m : ℕ}
    (hm : 32 + (buildSchema keys sigils).length ≤ m) {s : PaxStreamReader} :
    PaxStreamReader.new (file.bytes.take m) = .ok s ↔ (preambleTail = 0 ∨ EndsSealed (file.bytes.take m)) ∧
      PaxStreamReader.footerSeals (file.bytes.take m) preambleTail = .ok s.isSealed ∧
      s = ⟨file.bytes.take m, keys, sigils, 32 + (buildSchema keys sigils).length,
        32 + (buildSchema keys sigils).length, s.isSealed⟩ := by
  obtain ⟨⟨hash, hpre⟩, hschema, hdata, pageSize, htail, hlen⟩ := h.sectors
  have hsmall := file.small
  have hdlen : (file.bytes.take m).length = min m file.bytes.length := List.length_take
  obtain ⟨hmagic, hflags, htailPtr⟩ := at_preamble hpre
  have hmagic' := hmagic.of_prefix (m := m) (by rw [leBytes_length]; omega)
  have hflags' := hflags.of_prefix (m := m) (by rw [leBytes_length]; omega)
  have htailPtr' := htailPtr.of_prefix (m := m) (by rw [leBytes_length]; omega)
  have hschema' := hschema.of_prefix hm
  have hptr : preambleTail < 256 ^ 8 := by
    rcases h.tail with h0 | h0 <;> omega
  obtain ⟨b, hb, hseals⟩ := footerSeals_ok (d := file.bytes.take m) (by omega) (by omega) preambleTail
  rw [PaxStreamReader.new, ensure_of (by omega), ok_bind, readLE_leBytes hmagic' (by decide) (by omega), ok_bind,
    ensure_of rfl, ok_bind, readLE_leBytes hflags' (by decide) (by omega), ok_bind, ensure_of (by decide),
    ok_bind, readLE_leBytes htailPtr' hptr (by omega), ok_bind, ensure_of (by decide), ok_bind,
    parseSchema_buildSchema (by omega) hschema' (by decide) h.keys_lt h.nulFree, ok_bind]
  dsimp only
  rw [hb, ok_bind, schemaSigils_eq h.sigils_length h.sigils_ne]
  by_cases hopen : b = false ∧ preambleTail ≠ 0
  · rw [ensure_not (not_not_intro hopen), err_bind]
    refine iff_of_false (by simp) fun hs => ?_
    rcases hs.1 with h0 | h0
    · exact hopen.2 h0
    · rw [(hseals hopen.2).mpr h0] at hopen
      exact absurd hopen.1 (by decide)
  · rw [ensure_of hopen, ok_bind]
    constructor
    · rintro ⟨rfl⟩
      refine ⟨?_, rfl, rfl⟩
      by_cases h0 : preambleTail = 0
      · exact Or.inl h0
      · refine Or.inr ((hseals h0).mp ?_)
        by_contra hne
        exact hopen ⟨by simpa using hne, h0⟩
    · rintro ⟨-, hsealed, hs⟩
      cases hsealed
      rw [hs]

/-- The pages of a file lie one behind the other. -/
theorem page (h : SealedPax keys sigils gs st preambleTail file) {p : ℕ} {g : List RecordRow} (hp : gs[p]? = some g) :
    ∃ page cols entry, encodePage p (groupStart gs p) g.length keys.length sigils g = .ok page ∧
      encodeColumns keys.length sigils g = .ok cols ∧ st.pages[p]? = some entry ∧
      entry.pageIndex = p ∧ entry.recordStart = groupStart gs p ∧ entry.recordCount = g.length ∧
      entry.pageOffset = pageOffset (32 + (buildSchema keys sigils).length) st p ∧ 8 ∣ entry.pageOffset ∧
      PageAt file.bytes entry.pageOffset p (groupStart gs p) g cols ∧ At file.bytes entry.pageOffset page ∧
      pageOffset (32 + (buildSchema keys sigils).length) st (p + 1) = entry.pageOffset + page.length ∧
      24 + cols.flatten.length + 4 ≤ page.length := by
  obtain ⟨-, -, hdata, -⟩ := h.sectors
  obtain ⟨page, off, henc, hentry, hat, h8, hnext⟩ := h.emitted.span hp
  have hpage := hdata.trans hat
  obtain ⟨cols, hcols, hparts, hlen⟩ := pageAt henc hpage
  have hoff : pageOffset (32 + (buildSchema keys sigils).length) st p = 32 + (buildSchema keys sigils).length + off := by
    rw [pageOffset, hentry]
  have hdvd := buildSchema_length_dvd keys sigils
  exact ⟨page, cols, _, henc, hcols, hentry, rfl, rfl, rfl, hoff.symm, by dsimp only; omega, hparts, hpage, hnext, by omega⟩

/-- Each page has a byte or more. -/
theorem pageOffset_add_le (h : SealedPax keys sigils gs st preambleTail file) :
    ∀ {n p : ℕ}, p + n ≤ gs.length → pageOffset (32 + (buildSchema keys sigils).length) st p + n ≤
      pageOffset (32 + (buildSchema keys sigils).length) st (p + n)
  | 0, p, _ => le_refl _
  | n + 1, p, hp => by
    obtain ⟨page, cols, entry, -, -, -, -, -, -, hoff, -, -, -, hnext, hlen⟩ :=
      h.page (List.getElem?_eq_getElem (show p < gs.length by omega))
    have ih := h.pageOffset_add_le (n := n) (p := p + 1) (by omega)
    rw [show p + 1 + n = p + (n + 1) by omega] at ih
    omega

end SealedPax

/-- The length that a page gives of itself, before it is cut to 32 bits. -/
def pageLen (fieldCount : ℕ) (sigils : List UInt8) (g : List RecordRow) : ℕ :=
  match encodeColumns fieldCount sigils g with
  | .ok cols => 24 + cols.flatten.length + 4
  | _ => 0

/-- What a reader knows of the page of an entry. -/
def PaxPageMeta.view (page : PaxPageMeta) (fieldCount : ℕ) (d : Bytes) : PaxPageView :=
  ⟨page.pageOffset, page.pageIndex, page.recordStart, page.recordCount, fieldCount, d⟩

namespace SealedPax

variable {keys : List String} {sigils : List UInt8} {gs : List (List RecordRow)} {st : PaxPages} {preambleTail : ℕ}
  {file : Slice}

/-- Polling at a page. -/
theorem pollNextPage_page (h : SealedPax keys sigils gs st preambleTail file) {p m : ℕ} {g : List RecordRow}
    {entry : PaxPageMeta} (hp : gs[p]? = some g) (hentry : st.pages[p]? = some entry) {s : PaxStreamReader}
    (hdata : s.data = file.bytes.take m) (hsigils : s.keySigils = sigils)
    (hcursor : s.pageCursor = pageOffset (32 + (buildSchema keys sigils).length) st p) : s.pollNextPage =
      if pageOffset (32 + (buildSchema keys sigils).length) st (p + 1) ≤ m ∧ pageLen keys.length sigils g < 2 ^ 32 then
        .ok (entry.view keys.length (file.bytes.take m),
          { s with pageCursor := pageOffset (32 + (buildSchema keys sigils).length) st (p + 1) })
      else none' := by
  obtain ⟨page, cols, entry', henc, hcols, hentry', hindex, hstart, hcount, hoff, h8, hparts, hat, hnext, hlen⟩ := h.page hp
  rw [hentry] at hentry'
  cases hentry'
  have hsmall := file.small
  obtain ⟨-, hrows⟩ := h.emitted.fits g (List.mem_of_getElem? hp)
  have hflat := h.emitted.flatten_lt
  have hle := hat.le
  have hkeys := h.keys_lt
  have hstart_le := PaxReader.groupStart_le gs p
  obtain ⟨-, -, -, hpages⟩ := h.emitted.counts
  have hplt := (List.getElem?_eq_some_iff.mp hp).1
  rw [PaxStreamReader.pollNextPage, hdata, hsigils, hcursor, ← hoff,
    completePageEnd_prefix hsmall henc hat hcols hrows hkeys h8, pageLen, hcols, hnext]
  dsimp only
  by_cases hall : entry.pageOffset + page.length ≤ m ∧ 24 + cols.flatten.length + 4 < 2 ^ 32
  · have htake : ∀ {off : ℕ} {seg : Bytes}, At file.bytes off seg → off + seg.length ≤ entry.pageOffset + page.length →
        At (file.bytes.take m) off seg := fun hseg hseglen => hseg.of_prefix (by omega)
    have hdlen : (file.bytes.take m).length < 2 ^ 63 := by
      rw [List.length_take]
      omega
    obtain ⟨hclen, -⟩ := encodeColumns_spec hcols
    have hi := htake hparts.index (by rw [leBytes_length]; omega)
    have hs := htake hparts.start (by rw [leBytes_length]; omega)
    have hc := htake hparts.count (by rw [leBytes_length]; omega)
    have hf := htake hparts.fields (by rw [leBytes_length]; omega)
    rw [if_pos hall, if_pos hall, ok_bind, parsePageView, readLE_leBytes hi (by omega) hdlen, ok_bind,
      readLE_leBytes hs (by omega) hdlen, ok_bind, readLE_leBytes hc (by omega) hdlen, ok_bind,
      readLE_leBytes hf (by omega) hdlen, ok_bind, ok_bind, hclen, PaxPageMeta.view, hindex, hstart, hcount]
  · rw [if_neg hall, if_neg hall, err_bind]

/-- What is measured of a column without records. -/
theorem columnSectorLen_empty {d : Bytes} (hsmall : d.length < 2 ^ 63) (sigil : UInt8) :
    (∃ e, columnSectorLen d 0 sigil = .err e) ∨ ∃ n, columnSectorLen d 0 sigil = .ok n ∧ n ≤ 2 ^ 33 := by
  have h0 : nullBitmapBytes 0 = 0 := rfl
  rw [columnSectorLen, nullBitmapLen_of (by decide), ok_bind, ensure_of (by omega), ok_bind]
  by_cases hv : isVarSigil sigil = true
  · rw [if_pos hv, checkedAdd_of (by decide), okOr_ok, ok_bind, checkedMul_of (by decide), okOr_ok, ok_bind,
      checkedAdd_of (by decide), okOr_ok, ok_bind]
    by_cases hoffs : nullBitmapBytes 0 + (0 + 1) * 4 ≤ d.length
    · have hlast := word_lt d (nullBitmapBytes 0 + 0 * 4) 4
      rw [ensure_of hoffs, ok_bind, checkedMul_of (by decide), okOr_ok, ok_bind, checkedAdd_of (by decide), okOr_ok,
        ok_bind, readLE_word (by omega) hsmall, ok_bind, checkedAdd_of (by omega), okOr_ok]
      exact Or.inr ⟨_, rfl, by omega⟩
    · rw [ensure_not hoffs]
      exact Or.inl ⟨_, rfl⟩
  · rw [if_neg hv, checkedMul_of (by decide), okOr_ok, ok_bind, checkedAdd_of (by decide), okOr_ok]
    exact Or.inr ⟨_, rfl, by decide⟩

theorem pageColumnsEnd_empty {d : Bytes} (hsmall : d.length < 2 ^ 63) (sigils : List UInt8) : ∀ (n fi body : ℕ),
    body ≤ d.length + 2 ^ 33 → pageColumnsEnd d sigils 0 n fi body = none' ∨
      ∃ stop, pageColumnsEnd d sigils 0 n fi body = .ok stop ∧ body ≤ stop ∧ stop ≤ d.length + 2 ^ 33
  | 0, fi, body, hbody => Or.inr ⟨body, rfl, le_refl _, hbody⟩
  | n + 1, fi, body, hbody => by
    rw [pageColumnsEnd, getFrom]
    by_cases hin : body ≤ d.length
    · rw [if_pos hin, ok_bind]
      have hsector : (d.drop body).length < 2 ^ 63 := by
        rw [List.length_drop]
        omega
      rcases columnSectorLen_empty hsector (sigils.getD fi SIGIL_INT) with ⟨e, herr⟩ | ⟨k, hok, hk⟩
      · rw [herr]
        exact Or.inl rfl
      · rw [hok, toOpt_ok, ok_bind, checkedAdd_of (by omega), ok_bind]
        rcases pageColumnsEnd_empty hsmall sigils n (fi + 1) (body + k) (by omega) with hnone | ⟨stop, hstop, hge, hle⟩
        · exact Or.inl hnone
        · exact Or.inr ⟨stop, hstop, by omega, hle⟩
    · rw [if_neg hin]
      exact Or.inl rfl

/-- No page is found in the tail-index. -/
theorem completePageEnd_tail (h : SealedPax keys sigils gs st preambleTail file) (m : ℕ) :
    completePageEnd (file.bytes.take m) (32 + (buildSchema keys sigils).length + st.data.length) sigils = none' := by
  obtain ⟨-, -, -, pageSize, htail, hlen⟩ := h.sectors
  have hsmall := file.small
  have hdlen : (file.bytes.take m).length = min m file.bytes.length := List.length_take
  have hle := htail.le
  set off := 32 + (buildSchema keys sigils).length + st.data.length with hoff
  rw [completePageEnd, usizeAdd_of (by omega), ok_bind]
  by_cases hhead : off + 24 ≤ (file.bytes.take m).length
  · rw [ensure_of (by omega), ok_bind, getLE_word (by omega) (by omega), ok_bind]
    by_cases hmagic : word (file.bytes.take m) off 4 = MAGIC_PAGE
    · -- only the position of the tail-index itself can look like the start of a page
      have hnil : st.pages = [] := by
        obtain ⟨-, hplen, -, -⟩ := h.emitted.counts
        rcases Nat.eq_zero_or_pos gs.length with h0 | h0
        · exact List.eq_nil_of_length_eq_zero (by omega)
        · obtain ⟨page, off', -, hentry, -⟩ := h.emitted.page (List.getElem?_eq_getElem h0)
          have hfirst := htail
          rw [buildPaxTail, at_append, at_append, at_append, at_append, at_append] at hfirst
          obtain ⟨⟨⟨⟨⟨hentries, -⟩, -⟩, -⟩, -⟩, -⟩ := hfirst
          have hat := hentries.trans (at_flatMap_const (fun e _ => pageEntryBytes_length e) hentry)
          rw [pageEntryBytes, at_append, at_append, at_append, at_append, Nat.zero_mul, Nat.add_zero] at hat
          obtain ⟨⟨⟨⟨hindex, -⟩, -⟩, -⟩, -⟩ := hat
          rw [word_take (by omega), word_leBytes hindex (show 0 < 256 ^ 4 by decide)] at hmagic
          exact absurd hmagic (show ¬ 0 = MAGIC_PAGE by decide)
      rw [hnil, buildPaxTail, List.flatMap_nil, List.nil_append, at_append, at_append, at_append, at_append] at htail
      rw [hnil, buildPaxTail, List.flatMap_nil, List.nil_append] at hlen
      simp only [List.length_append, leBytes_length, List.length_nil] at hlen htail
      obtain ⟨⟨⟨⟨-, -⟩, hpages⟩, -⟩, hfooter⟩ := htail
      have hzero : word (file.bytes.take m) (off + 16) 4 = 0 := by
        rw [word_take (by omega), word_leBytes hpages (by decide)]
      rw [ensure_of hmagic, ok_bind, getLE_word (by omega) (by omega), ok_bind, getLE_word (by omega) (by omega),
        ok_bind, hzero]
      rcases pageColumnsEnd_empty (d := file.bytes.take m) (by omega) sigils
        (word (file.bytes.take m) (off + 20) 2) 0 (off + 24) (by omega) with hnone | ⟨stop, hstop, hge, hstopLe⟩
      · rw [hnone, err_bind]
      · rw [hstop, ok_bind, usizeAdd_of (by omega), ok_bind]
        by_cases hroom : stop + 4 ≤ (file.bytes.take m).length
        · -- then the four bytes that are taken for the length are the magic number of the footer
          obtain rfl : stop = off + 24 := by omega
          rw [ensure_of (by omega), ok_bind, getLE_word (by omega) (by omega), ok_bind, word_take (by omega),
            word_leBytes hfooter (by decide), checkedAdd_of (by unfold MAGIC_FOOTER; omega), ok_bind,
            ensure_not (by unfold MAGIC_FOOTER; omega), err_bind]
        · rw [ensure_not (by omega), err_bind]
    · rw [ensure_not hmagic, err_bind]
  · rw [ensure_not (by omega), err_bind]

/-- The prefix of `m` bytes has the schema and `k` complete pages. -/
structure Shows (keys : List String) (sigils : List UInt8) (gs : List (List RecordRow)) (st : PaxPages) (m k : ℕ) : Prop where
  pages : k ≤ gs.length
  complete : pageOffset (32 + (buildSchema keys sigils).length) st k ≤ m
  partialPage : k < gs.length → m < pageOffset (32 + (buildSchema keys sigils).length) st (k + 1)

/-- Polling from page `p` on finds the pages that are there, up to the first that is too long for its own length. -/
theorem pollPages_from (h : SealedPax keys sigils gs st preambleTail file) {m k : ℕ} (hk : Shows keys sigils gs st m k) :
    ∀ {n p f : ℕ} {s : PaxStreamReader}, p + n = k → n < f → s.data = file.bytes.take m → s.keySigils = sigils →
      s.pageCursor = pageOffset (32 + (buildSchema keys sigils).length) st p → ∃ k', p ≤ k' ∧ k' ≤ k ∧
        s.pollPages f = .ok (((st.pages.take k').drop p).map fun page => page.view keys.length (file.bytes.take m)) ∧
        (k' = k ↔ ∀ g ∈ (gs.take k).drop p, pageLen keys.length sigils g < 2 ^ 32)
  | n, p, 0, _, _, hfuel, _, _, _ => absurd hfuel (Nat.not_lt_zero _)
  | 0, p, fuel + 1, s, hp, _, hdata, hsigils, hcursor => by
    obtain rfl : p = k := by omega
    refine ⟨p, le_refl _, le_refl _, ?_, by simp⟩
    have hstop : s.pollNextPage = none' := by
      by_cases hlast : p < gs.length
      · obtain ⟨page, cols, entry, -, -, hentry, -⟩ := h.page (List.getElem?_eq_getElem hlast)
        have hpartial := hk.partialPage hlast
        rw [h.pollNextPage_page (List.getElem?_eq_getElem hlast) hentry hdata hsigils hcursor, if_neg (by omega)]
      · obtain ⟨-, hplen, -, -⟩ := h.emitted.counts
        have hbehind : pageOffset (32 + (buildSchema keys sigils).length) st p =
            32 + (buildSchema keys sigils).length + st.data.length := by
          rw [pageOffset, List.getElem?_eq_none (by omega)]
        rw [PaxStreamReader.pollNextPage, hdata, hsigils, hcursor, hbehind, h.completePageEnd_tail, err_bind]
    rw [PaxStreamReader.pollPages, hstop, List.drop_of_length_le (List.length_take_le _ _)]
    rfl
  | n + 1, p, fuel + 1, s, hp, hfuel, hdata, hsigils, hcursor => by
    have hlt : p < gs.length := by
      have := hk.pages
      omega
    have hget := List.getElem?_eq_getElem hlt
    obtain ⟨page, cols, entry, -, -, hentry, -⟩ := h.page hget
    have hthere : pageOffset (32 + (buildSchema keys sigils).length) st (p + 1) ≤ m := by
      have hmono := h.pageOffset_add_le (n := n) (p := p + 1) (by have := hk.pages; omega)
      rw [show p + 1 + n = k by omega] at hmono
      have := hk.complete
      omega
    have hcons : (gs.take k).drop p = gs[p] :: (gs.take k).drop (p + 1) := by
      rw [List.drop_eq_getElem_cons (by rw [List.length_take]; omega), List.getElem_take]
    have hpoll := h.pollNextPage_page hget hentry hdata hsigils hcursor
    rw [hcons]
    by_cases hsmall : pageLen keys.length sigils gs[p] < 2 ^ 32
    · rw [if_pos ⟨hthere, hsmall⟩] at hpoll
      obtain ⟨k', hpk, hkk, hrest, hall⟩ := h.pollPages_from hk (n := n) (p := p + 1) (f := fuel)
        (s := { s with pageCursor := pageOffset (32 + (buildSchema keys sigils).length) st (p + 1) })
        (by omega) (by omega) hdata hsigils rfl
      refine ⟨k', by omega, hkk, ?_, ?_⟩
      · have hviews : (st.pages.take k').drop p = entry :: (st.pages.take k').drop (p + 1) := by
          obtain ⟨hplt, hpget⟩ := List.getElem?_eq_some_iff.mp hentry
          rw [List.drop_eq_getElem_cons (by rw [List.length_take]; omega), List.getElem_take, hpget]
        rw [PaxStreamReader.pollPages, hpoll]
        dsimp only
        rw [hrest, ok_bind, hviews, List.map_cons]
      · rw [hall, List.forall_mem_cons, and_iff_right hsmall]
    · rw [if_neg fun h' => hsmall h'.2] at hpoll
      refine ⟨p, le_refl _, by omega, ?_, ?_⟩
      · rw [PaxStreamReader.pollPages, hpoll, List.drop_of_length_le (List.length_take_le _ _)]
        rfl
      · exact iff_of_false (by omega) fun hall => hsmall (hall _ List.mem_cons_self)

/-- The pages that are found in a prefix of a file: all that are there, if none is too long for its own length. -/
theorem completePages_prefix (h : SealedPax keys sigils gs st preambleTail file) {m k : ℕ}
    (hk : Shows keys sigils gs st m k) {s : PaxStreamReader} (hdata : s.data = file.bytes.take m)
    (hsigils : s.keySigils = sigils) (hstart : s.dataStart = 32 + (buildSchema keys sigils).length) : ∃ k' ≤ k,
      s.completePages = .ok ((st.pages.take k').map fun page => page.view keys.length (file.bytes.take m)) ∧
        (k' = k ↔ ∀ g ∈ gs.take k, pageLen keys.length sigils g < 2 ^ 32) := by
  have hfuel : k < s.data.length + 1 := by
    have hoff := h.pageOffset_add_le (n := k) (p := 0) (by have := hk.pages; omega)
    obtain ⟨-, -, hsector, -⟩ := h.sectors
    have hroom : pageOffset (32 + (buildSchema keys sigils).length) st k ≤ file.bytes.length := by
      have hle := hsector.le
      rcases Nat.lt_or_ge k gs.length with hlt | hge
      · obtain ⟨page, cols, entry, -, -, -, -, -, -, hoff', -, -, hat, -, -⟩ := h.page (List.getElem?_eq_getElem hlt)
        have := hat.le
        omega
      · obtain ⟨-, hplen, -, -⟩ := h.emitted.counts
        rw [pageOffset, List.getElem?_eq_none (by omega)]
        omega
    have := hk.complete
    rw [hdata, List.length_take]
    rw [Nat.zero_add] at hoff
    omega
  obtain ⟨k', -, hle, hpoll, hall⟩ := h.pollPages_from hk (n := k) (p := 0) (f := s.data.length + 1)
    (s := { s with pageCursor := s.dataStart }) (by omega) hfuel hdata hsigils
    (by rw [h.emitted.pageOffset_zero]; exact hstart)
  rw [List.drop_zero] at hpoll hall
  exact ⟨k', hle, hpoll, hall⟩

end SealedPax

end Nyxis

import Nyxis.ReaderSafe
import Nyxis.Writer

/-!
# PrefetchOffsets — where the prefetch engine looks for a record

The engine has a lookup of its own: it reads the table of the v1.2 tail-index at the `tail_start` that the reader gives
it.  For a delta tail-index `tail_start` is the start of its header, and what is read there are other bytes.

* `prefetch_eq_ok`, `delta_eq_ok`: what the two lookups read.
* `lookup_agrees_iff`: when they agree, and the page is the one that the record starts on.
-/

namespace Nyxis

open Lib Lib.Outcome

namespace PrefetchEngine

/-- `row_record_offset` of `prefetch/mod.rs`. -/
def rowRecordOffset (d : Bytes) (tailStart i : ℕ) : Opt ℕ := do
  let rel ← checkedMul i 10
  let entry ← checkedAdd tailStart rel
  let _ ← checkedAdd entry 10
  getLE d (entry + 2) 8

/-- `(off / page_size) as u32`. -/
def pageOf (pageSize off : ℕ) : Opt UInt32 := if pageSize = 0 then .panic else .ok (.ofNat (off / pageSize))

end PrefetchEngine

open PrefetchEngine (pageOf)

/-- The byte is on the page. -/
def OnPage (pageSize : ℕ) (page : UInt32) (byte : ℕ) : Prop :=
  page.toNat * pageSize ≤ byte ∧ byte < (page.toNat + 1) * pageSize

/-- The engine finds what the reader finds, and takes the page where the record starts. -/
structure LookupAgrees (r : Reader) (pageSize i : ℕ) : Prop where
  offset : PrefetchEngine.rowRecordOffset r.data r.tailStart i = r.rowRecordOffset i
  page : ∀ start, r.rowRecordOffset i = .ok start → ∀ off, PrefetchEngine.rowRecordOffset r.data r.tailStart i = .ok off →
    ∃ page, pageOf pageSize off = .ok page ∧ OnPage pageSize page start

/-- The eight bytes of the entry for record `i` in a table at `tailStart` of ten bytes a record. -/
def InStride (d : Bytes) (tailStart i off : ℕ) : Prop :=
  tailStart + i * 10 + 10 ≤ d.length ∧ word d (tailStart + i * 10 + 2) 8 = off

/-- The anchor of record `i` and its delta, in the tables of a delta tail-index. -/
def InTables (d : Bytes) (dt : DeltaTailLayout) (i off : ℕ) : Prop :=
  dt.anchorsOff + i / max dt.blockSize 1 * 8 + 8 ≤ d.length ∧ dt.deltasOff + i * 4 + 4 ≤ d.length ∧
    word d (dt.anchorsOff + i / max dt.blockSize 1 * 8) 8 + word d (dt.deltasOff + i * 4) 4 = off ∧ off < 2 ^ 64

/-- The bytes of the file store this offset for record `i`. -/
def Stored (r : Reader) (i off : ℕ) : Prop :=
  match r.deltaTail with
  | none => InStride r.data r.tailStart i off
  | some dt => InTables r.data dt i off

/-- The bytes that a v1.2 table would have for the record spell the offset that the file stores, and its page has a number
of 32 bits. -/
structure LookupFits (r : Reader) (pageSize i : ℕ) : Prop where
  table : ∀ dt, r.deltaTail = some dt → ∀ off, InStride r.data r.tailStart i off ↔ InTables r.data dt i off
  page : ∀ off, Stored r i off → 0 < pageSize ∧ off / pageSize < 2 ^ 32

/-! ## The two lookups -/

theorem cellBytes_eq_ok {d : Bytes} {w off n : ℕ} (hd : d.length < 2 ^ 63) :
    cellBytes w d off = .ok n ↔ off + w ≤ d.length ∧ word d off w = n := by
  rw [cellBytes]
  by_cases hle : off + w ≤ d.length
  · rw [checkedAdd_of (by omega), okOr_ok, ok_bind, getRange, if_pos ⟨by omega, hle⟩, okOr_ok, ok_bind,
      Nat.add_sub_cancel_left, ok.injEq, and_iff_right hle, word]
  · refine iff_of_false (fun h => ?_) fun h => hle h.1
    obtain ⟨stop, hstop, h⟩ := bind_eq_ok.mp h
    obtain ⟨rfl, -⟩ := okOr_checkedAdd.mp hstop
    obtain ⟨bytes, hbytes, -⟩ := bind_eq_ok.mp h
    rw [getRange, if_neg fun hr => hle hr.2] at hbytes
    cases hbytes

/-- The delta tail-index gives what its two tables add up to. -/
theorem delta_eq_ok {d : Bytes} {dt : DeltaTailLayout} {i off : ℕ} (hd : d.length < 2 ^ 63) (hi : i < dt.recordCount)
    (hcount : dt.recordCount < 2 ^ 32) : deltaRecordOffset d dt i = .ok off ↔ InTables d dt i off := by
  have hdiv : i / max dt.blockSize 1 ≤ i := Nat.div_le_self _ _
  rw [deltaRecordOffset, InTables, ensure_of (by omega), ok_bind]
  dsimp only
  rw [checkedMul_of (show i / max dt.blockSize 1 * 8 < 2 ^ 64 by omega), okOr_ok, ok_bind,
    checkedMul_of (show i * 4 < 2 ^ 64 by omega)]
  simp only [okOr_ok, ok_bind]
  constructor
  · intro h
    obtain ⟨anchorOff, hanchorOff, h⟩ := bind_eq_ok.mp h
    obtain ⟨anchor, hanchor, h⟩ := bind_eq_ok.mp h
    obtain ⟨deltaOff, hdeltaOff, h⟩ := bind_eq_ok.mp h
    obtain ⟨delta, hdelta, h⟩ := bind_eq_ok.mp h
    obtain ⟨rfl, -⟩ := okOr_checkedAdd.mp hanchorOff
    obtain ⟨rfl, -⟩ := okOr_checkedAdd.mp hdeltaOff
    obtain ⟨h1, rfl⟩ := (cellBytes_eq_ok hd).mp hanchor
    obtain ⟨h2, rfl⟩ := (cellBytes_eq_ok hd).mp hdelta
    obtain ⟨hsum, hlt⟩ := okOr_checkedAdd.mp h
    exact ⟨h1, h2, hsum, hlt⟩
  · rintro ⟨h1, h2, hsum, hlt⟩
    refine bind_eq_ok.mpr ⟨_, okOr_checkedAdd.mpr ⟨rfl, by omega⟩, ?_⟩
    refine bind_eq_ok.mpr ⟨_, (cellBytes_eq_ok hd).mpr ⟨h1, rfl⟩, ?_⟩
    refine bind_eq_ok.mpr ⟨_, okOr_checkedAdd.mpr ⟨rfl, by omega⟩, ?_⟩
    exact bind_eq_ok.mpr ⟨_, (cellBytes_eq_ok hd).mpr ⟨h2, rfl⟩, okOr_checkedAdd.mpr ⟨hsum, hlt⟩⟩

/-- The engine reads the entry of a v1.2 table. -/
theorem prefetch_eq_ok {d : Bytes} {tailStart i off : ℕ} (hd : d.length < 2 ^ 63) (htail : tailStart ≤ d.length)
    (hi : i < 2 ^ 32) : PrefetchEngine.rowRecordOffset d tailStart i = .ok off ↔ InStride d tailStart i off := by
  rw [PrefetchEngine.rowRecordOffset, checkedMul_of (by omega), ok_bind, checkedAdd_of (by omega), ok_bind,
    checkedAdd_of (by omega), ok_bind, getLE_eq_ok hd (by omega), InStride]

/-! ## Where they agree -/

/-- The reader has the record count of its delta tail-index. -/
theorem openTail_deltaCount {d : Bytes} {flags t : ℕ} {keys : List String} {sigils : List UInt8}
    {ext : Option ExtendedSchema} {plan : Option RowCellPlan} {r : Reader}
    (h : Reader.openTail d flags t keys sigils ext plan = .ok r) :
    ∀ dt, r.deltaTail = some dt → dt.recordCount = r.recordCount := by
  rw [Reader.openTail] at h
  dsimp only at h
  split at h
  · obtain ⟨_, -, h⟩ := bind_eq_ok.mp h
    obtain ⟨_, -, h⟩ := bind_eq_ok.mp h
    obtain ⟨_, -, h⟩ := bind_eq_ok.mp h
    obtain ⟨_, -, h⟩ := bind_eq_ok.mp h
    obtain ⟨_, -, h⟩ := bind_eq_ok.mp h
    obtain ⟨_, -, h⟩ := bind_eq_ok.mp h
    cases h
    intro dt hdt
    cases hdt
  · split at h
    · obtain ⟨_, -, h⟩ := bind_eq_ok.mp h
      obtain ⟨_, -, h⟩ := bind_eq_ok.mp h
      cases h
      intro dt hdt
      cases hdt
    · have body : ∀ ptr, (do
          ensure (¬ ptr > d.length - 4) .outOfBounds
          if hasFlag flags FLAG_DELTA_TAIL then do
            let layout ← parseDeltaTailLayout d ptr
            .ok ⟨d, flags, keys, sigils, ext, plan, layout.recordCount, ptr, some layout, .row, [], []⟩
          else do
            let recordCount ← readLE d ptr 4
            .ok ⟨d, flags, keys, sigils, ext, plan, recordCount, ptr + 4, none, .row, [], []⟩) = Outcome.ok r →
          ∀ dt, r.deltaTail = some dt → dt.recordCount = r.recordCount := by
        intro ptr h
        obtain ⟨_, -, h⟩ := bind_eq_ok.mp h
        split at h
        · obtain ⟨layout, -, h⟩ := bind_eq_ok.mp h
          cases h
          intro dt hdt
          cases hdt
          rfl
        · obtain ⟨_, -, h⟩ := bind_eq_ok.mp h
          cases h
          intro dt hdt
          cases hdt
      split at h
      · obtain ⟨_, -, h⟩ := bind_eq_ok.mp h
        obtain ⟨ptr, -, h⟩ := bind_eq_ok.mp h
        exact body ptr h
      · exact body t h

theorem reader_deltaCount {file : Slice} {r : Reader} (h : Reader.new file = .ok r) :
    ∀ dt, r.deltaTail = some dt → dt.recordCount = r.recordCount := by
  obtain ⟨_, _, _, _, hopen, -⟩ := reader_opens h
  exact openTail_deltaCount hopen

section

variable {r : Reader} (h : r.Opened) (hrow : r.layout = .row) {pageSize i : ℕ} (hi : i < r.recordCount)

include h hrow hi

theorem prefetch_not_panic : PrefetchEngine.rowRecordOffset r.data r.tailStart i ≠ .panic := by
  obtain ⟨hcount, htail⟩ := h.row hrow
  have hd := h.small
  rw [PrefetchEngine.rowRecordOffset, checkedMul_of (by omega), ok_bind, checkedAdd_of (by omega), ok_bind,
    checkedAdd_of (by omega), ok_bind]
  exact (safe_getLE (by omega)).ne_panic

/-- The reader reads what the file stores. -/
theorem rowRecordOffset_eq_ok (hdelta : ∀ dt, r.deltaTail = some dt → dt.recordCount = r.recordCount) {off : ℕ} :
    r.rowRecordOffset i = .ok off ↔ Stored r i off := by
  obtain ⟨hcount, htail⟩ := h.row hrow
  have hd := h.small
  rw [Reader.rowRecordOffset, Stored]
  cases hdt : r.deltaTail with
  | none =>
    dsimp only
    rw [usizeMul_of (by omega), ok_bind, usizeAdd_of (by omega), ok_bind, usizeAdd_of (by omega), ok_bind,
      getLE_eq_ok hd (by omega), InStride]
  | some dt =>
    have hsame := hdelta dt hdt
    dsimp only
    rw [toOpt_eq_ok, delta_eq_ok hd (by omega) (by omega)]

/-- Both lookups give a number or nothing, so they agree where they give the same numbers. -/
theorem lookup_eq_iff (hdelta : ∀ dt, r.deltaTail = some dt → dt.recordCount = r.recordCount) :
    PrefetchEngine.rowRecordOffset r.data r.tailStart i = r.rowRecordOffset i ↔
      ∀ dt, r.deltaTail = some dt → ∀ off, InStride r.data r.tailStart i off ↔ InTables r.data dt i off := by
  obtain ⟨hcount, htail⟩ := h.row hrow
  have hread : ∀ off, r.rowRecordOffset i = .ok off ↔ Stored r i off := fun off => rowRecordOffset_eq_ok h hrow hi hdelta
  have hfetch : ∀ off, PrefetchEngine.rowRecordOffset r.data r.tailStart i = .ok off ↔ InStride r.data r.tailStart i off :=
    fun off => prefetch_eq_ok h.small htail (show i < 2 ^ 32 by omega)
  have hsame : PrefetchEngine.rowRecordOffset r.data r.tailStart i = r.rowRecordOffset i ↔
      ∀ off, InStride r.data r.tailStart i off ↔ Stored r i off := by
    constructor
    · intro heq off
      rw [← hread, ← hfetch, heq]
    · intro hoff
      exact eq_of_ok_iff (prefetch_not_panic h hrow hi) (safe_rowRecordOffset h hrow hi).ne_panic fun off => by
        rw [hread, hfetch, hoff]
  rw [hsame]
  simp only [Stored]
  cases hdt : r.deltaTail with
  | none => simp
  | some dt => simp

end

/-- The page that is taken for an offset contains that byte where its number was not cut. -/
theorem onPage_pageOf {pageSize off : ℕ} :
    (∃ page, pageOf pageSize off = .ok page ∧ OnPage pageSize page off) ↔ 0 < pageSize ∧ off / pageSize < 2 ^ 32 := by
  rw [pageOf]
  constructor
  · rintro ⟨page, hpage, hle, hlt⟩
    split at hpage
    · cases hpage
    · rename_i hne
      have hdiv : off / pageSize = page.toNat :=
        Nat.div_eq_of_lt_le hle hlt
      exact ⟨by omega, hdiv ▸ page.toNat_lt⟩
  · rintro ⟨hpos, hlt⟩
    rw [if_neg (by omega)]
    refine ⟨_, rfl, ?_⟩
    rw [OnPage, UInt32.toNat_ofNat_of_lt' hlt]
    exact ⟨Nat.div_mul_le_self _ _, Nat.lt_mul_of_div_lt (Nat.lt_succ_self _) hpos⟩

/-- The engine looks a record of a row file up as the reader does exactly where the bytes at `tail_start` spell what the
file stores and the page has a number of 32 bits. -/
theorem lookup_agrees_iff {file : Slice} {r : Reader} (h : Reader.new file = .ok r) (hrow : r.layout = .row)
    (pageSize : ℕ) {i : ℕ} (hi : i < r.recordCount) : LookupAgrees r pageSize i ↔ LookupFits r pageSize i := by
  have hopened := reader_opened h
  have hdelta := reader_deltaCount h
  have hread : ∀ off, r.rowRecordOffset i = .ok off ↔ Stored r i off := fun off => rowRecordOffset_eq_ok hopened hrow hi hdelta
  constructor
  · intro hagree
    refine ⟨(lookup_eq_iff hopened hrow hi hdelta).mp hagree.offset, fun off hstored => ?_⟩
    have hstart := (hread off).mpr hstored
    exact onPage_pageOf.mp (hagree.page off hstart off (hagree.offset.trans hstart))
  · intro hfits
    have hoffset := (lookup_eq_iff hopened hrow hi hdelta).mpr hfits.table
    refine ⟨hoffset, fun start hstart off hoff => ?_⟩
    obtain rfl : start = off := ok.inj (hstart.symm.trans (hoffset.symm.trans hoff))
    exact onPage_pageOf.mpr (hfits.page start ((hread start).mp hstart))

/-- A file with a v1.2 tail-index, and its first record. -/
theorem lookup_agrees_first : ∃ file r, finishRow ["a"] [⟨[.i64 7]⟩] none = .ok file ∧ Reader.new file = .ok r ∧
    LookupAgrees r 65536 0 := by
  have hrun : (finishRow ["a"] [⟨[.i64 7]⟩] none >>= fun file => do
      let r ← Reader.new file
      .ok (r.layout, r.recordCount, r.deltaTail, r.rowRecordOffset 0)) = .ok (.row, 1, none, .ok 40) := by
    decide +kernel
  obtain ⟨file, hfile, hrun⟩ := bind_eq_ok.mp hrun
  obtain ⟨r, hr, hrun⟩ := bind_eq_ok.mp hrun
  simp only [ok.injEq, Prod.mk.injEq] at hrun
  obtain ⟨hrow, hcount, hnone, hoff⟩ := hrun
  refine ⟨file, r, hfile, hr, (lookup_agrees_iff hr hrow 65536 (by omega)).mpr ⟨?_, fun off hstored => ?_⟩⟩
  · intro dt hdt
    rw [hnone] at hdt
    cases hdt
  · have hread := (rowRecordOffset_eq_ok (reader_opened hr) hrow (by omega) (reader_deltaCount hr)).mpr hstored
    obtain rfl : 40 = off := ok.inj (hoff.symm.trans hread)
    decide

/-- A compact file has a delta tail-index, and the engine takes bytes of its header for the offset. -/
theorem lookup_disagrees : ∃ file r, finishRow ["a"] [⟨[.i64 7]⟩] (some CompactOptions.compact) = .ok file ∧
    Reader.new file = .ok r ∧ r.layout = .row ∧ 0 < r.recordCount ∧ r.rowRecordOffset 0 = .ok 44 ∧
      PrefetchEngine.rowRecordOffset r.data r.tailStart 0 = .ok 281475043819520 := by
  have hrun : (finishRow ["a"] [⟨[.i64 7]⟩] (some CompactOptions.compact) >>= fun file => do
      let r ← Reader.new file
      .ok (r.layout, r.recordCount, r.rowRecordOffset 0, PrefetchEngine.rowRecordOffset r.data r.tailStart 0)) =
        .ok (.row, 1, .ok 44, .ok 281475043819520) := by
    decide +kernel
  obtain ⟨file, hfile, hrun⟩ := bind_eq_ok.mp hrun
  obtain ⟨r, hr, hrun⟩ := bind_eq_ok.mp hrun
  simp only [ok.injEq, Prod.mk.injEq] at hrun
  obtain ⟨hrow, hcount, hread, hfetch⟩ := hrun
  exact ⟨file, r, hfile, hr, hrow, by omega, hread, hfetch⟩

end Nyxis

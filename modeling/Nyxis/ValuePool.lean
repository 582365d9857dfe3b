import Nyxis.ReaderSafe
import Nyxis.WrittenSchema

/-!
# ValuePool — the strings that a v1.3 header carries

The pool has 16 bits for the number of its strings, and a NUL byte behind each of them.  Neither the number nor the
strings are checked when it is written.

* `schema_reads_iff`: a header is read back exactly when the pool fits.
* `promotion_kept_iff`: the promoted cells are read back exactly when the pool fits and the flags of the file carry it.
-/

namespace Nyxis

open Lib Lib.Outcome
open Compiler (internKey firstSeen_internKey foldl_internKey_length)

/-! ## What can be read of a pool -/

theorem nonNul_take : ∀ l : Bytes, (0 : UInt8) ∉ l.take (nonNul l)
  | [] => by simp
  | b :: bs => by
    rw [nonNul]
    split
    · simp
    · rename_i hb
      rw [List.take_succ_cons, List.mem_cons, not_or]
      exact ⟨Ne.symm hb, nonNul_take bs⟩

/-- No string that is read has a NUL byte. -/
theorem readStrings_nulFree {msg : String} {d : Bytes} : ∀ {n pos : ℕ} {r : List String × ℕ},
    readStrings msg d n pos = .ok r → ∀ s ∈ r.1, NulFree s
  | 0, _, _, h, s, hs => by
    cases h
    cases hs
  | n + 1, pos, _, h, s, hs => by
    rw [readStrings] at h
    dsimp only at h
    obtain ⟨_, hstop, h⟩ := bind_eq_ok.mp h
    rw [ensure_eq_ok] at hstop
    rw [range_of (Nat.le_add_right _ _) (Nat.le_of_lt hstop), ok_bind, Nat.add_sub_cancel_left] at h
    obtain ⟨first, hfirst, h⟩ := bind_eq_ok.mp h
    obtain ⟨⟨rest, p⟩, hrest, h⟩ := bind_eq_ok.mp h
    cases h
    rcases List.mem_cons.mp hs with rfl | hs
    · cases hutf : fromUtf8 ((d.drop pos).take (nonNul (d.drop pos))) with
      | ok t =>
        rw [hutf, okOr_ok] at hfirst
        cases hfirst
        rw [NulFree, utf8_fromUtf8 hutf]
        exact nonNul_take _
      | err e =>
        rw [hutf] at hfirst
        cases hfirst
      | panic =>
        rw [hutf] at hfirst
        cases hfirst
    · exact readStrings_nulFree hrest s hs

theorem poolFits_iff {pool : List String} : PoolFits pool ↔ pool.length < 65536 ∧ ∀ s ∈ pool, NulFree s :=
  ⟨fun h => ⟨h.count, h.nulFree⟩, fun h => ⟨h.1, h.2⟩⟩

theorem parseValuePool_fits {d : Bytes} {p : ℕ} {r : List String × ℕ} (h : parseValuePool d p = .ok r) : PoolFits r.1 := by
  have hnone : PoolFits [] := ⟨by decide, fun _ hs => by cases hs⟩
  rw [parseValuePool] at h
  obtain ⟨stop, -, h⟩ := bind_eq_ok.mp h
  split at h
  · obtain ⟨n, hn, h⟩ := bind_eq_ok.mp h
    split at h
    · obtain ⟨⟨pool, q⟩, hpool, h⟩ := bind_eq_ok.mp h
      cases h
      exact ⟨by rw [readStrings_length hpool]; exact readLE_lt hn, readStrings_nulFree (r := (pool, q)) hpool⟩
    · cases h
      exact hnone
  · cases h
    exact hnone

theorem parseExtendedSchema_fits {d : Bytes} {pos flags : ℕ} {out : ExtendedSchema × ℕ}
    (h : parseExtendedSchema d pos flags = .ok out) : PoolFits out.1.valuePool := by
  rw [parseExtendedSchema] at h
  obtain ⟨p, -, h⟩ := bind_eq_ok.mp h
  obtain ⟨_, -, h⟩ := bind_eq_ok.mp h
  obtain ⟨n, -, h⟩ := bind_eq_ok.mp h
  obtain ⟨_, -, h⟩ := bind_eq_ok.mp h
  obtain ⟨⟨sigils, p₁⟩, -, h⟩ := bind_eq_ok.mp h
  obtain ⟨⟨keys, p₂⟩, -, h⟩ := bind_eq_ok.mp h
  obtain ⟨⟨widths, p₃⟩, -, h⟩ := bind_eq_ok.mp h
  obtain ⟨⟨attrs, p₄⟩, -, h⟩ := bind_eq_ok.mp h
  obtain ⟨⟨pool, p₅⟩, hpool, h⟩ := bind_eq_ok.mp h
  obtain ⟨_, -, h⟩ := bind_eq_ok.mp h
  cases h
  exact parseValuePool_fits hpool

/-! ## The header -/

/-- The header at `pos` is parsed to `out`, which says what `sch` says. -/
structure SchemaReads (d : Bytes) (pos flags : ℕ) (sch : ExtendedSchema) (out : ExtendedSchema × ℕ) : Prop where
  parsed : parseExtendedSchema d pos flags = .ok out
  keys : out.1.keys = sch.keys
  sigils : out.1.sigils = sch.sigils
  fieldAttrs : out.1.fieldAttrs = sch.fieldAttrs
  valuePool : out.1.valuePool = sch.valuePool
  widths : hasFlag flags FLAG_NARROW_CELLS = true → out.1.widths = sch.widths
  stop : out.2 = pos + (buildExtendedSchema sch flags).length

/-- The columns of a header: at most 256 NUL-free keys, and for each a sigil, a width and attributes. -/
structure HeaderColumns (sch : ExtendedSchema) : Prop where
  count : sch.keys.length ≤ 256
  nulFree : ∀ k ∈ sch.keys, NulFree k
  sigils : sch.sigils.length = sch.keys.length
  widths : sch.widths.length = sch.keys.length
  fieldAttrs : sch.fieldAttrs.length = sch.keys.length

theorem blockBytes_of_length {n : ℕ} {l : Bytes} (h : l.length = n) : blockBytes n l true = l := by
  rw [blockBytes, if_pos rfl]
  refine List.ext_getElem (by rw [List.length_map, List.length_range, h]) fun i hi hi' => ?_
  rw [List.getElem_map, List.getElem_range, List.getD_eq_getElem?_getD, List.getElem?_eq_getElem hi', Option.getD_some]

section

variable {sch : ExtendedSchema} {flags : ℕ} {pre post : Bytes} {file : Slice}

theorem header_parsed (hcols : HeaderColumns sch) (h8 : 8 ∣ pre.length)
    (hfile : file.bytes = pre ++ buildExtendedSchema sch flags ++ post) (hfits : PoolFits sch.valuePool) :
    parseExtendedSchema file.bytes pre.length flags =
      .ok (⟨sch.keys, sch.sigils, blockBytes sch.keys.length sch.widths (hasFlag flags FLAG_NARROW_CELLS),
        blockBytes sch.keys.length sch.fieldAttrs (hasFlag flags FLAG_V13_COMPACT_MASK), sch.valuePool⟩,
        pre.length + (buildExtendedSchema sch flags).length) :=
  parse_buildExtendedSchema file.small (hfile ▸ At.mk pre _ post) h8 rfl rfl hcols.count hcols.sigils hcols.nulFree
    hfits.1 hfits.2

end

/-- A v1.3 header is read back exactly when its pool has fewer than 65536 strings, and none with a NUL byte. -/
theorem schema_reads_iff (sch : ExtendedSchema) (hcols : HeaderColumns sch) (flags : ℕ)
    (hflags : hasFlag flags FLAG_V13_COMPACT_MASK = true) (pre post : Bytes) (h8 : 8 ∣ pre.length) (file : Slice)
    (hfile : file.bytes = pre ++ buildExtendedSchema sch flags ++ post) :
    (∃ out, SchemaReads file.bytes pre.length flags sch out) ↔
      sch.valuePool.length < 65536 ∧ ∀ s ∈ sch.valuePool, NulFree s := by
  rw [← poolFits_iff]
  constructor
  · rintro ⟨out, hreads⟩
    rw [← hreads.valuePool]
    exact parseExtendedSchema_fits hreads.parsed
  · intro hfits
    have hparsed := header_parsed hcols h8 hfile hfits
    rw [hflags, blockBytes_of_length hcols.fieldAttrs] at hparsed
    refine ⟨_, hparsed, rfl, rfl, rfl, rfl, fun hnarrow => ?_, rfl⟩
    dsimp only
    rw [hnarrow, blockBytes_of_length hcols.widths]

/-- A header with one string column whose strings `pool` are promoted. -/
def poolHeader (pool : List String) : ExtendedSchema where
  keys := ["k"]
  sigils := [SIGIL_STR]
  widths := [2]
  fieldAttrs := [1]
  valuePool := pool

theorem poolHeader_columns (pool : List String) : HeaderColumns (poolHeader pool) := by
  refine ⟨Nat.one_le_ofNat, fun k hk => ?_, rfl, rfl, rfl⟩
  cases List.mem_singleton.mp hk
  decide

theorem schema_reads_two : ∃ out, SchemaReads (buildExtendedSchema (poolHeader ["x", "y"]) FLAG_PACKED_BOOLS ++ [5]) 0
    FLAG_PACKED_BOOLS (poolHeader ["x", "y"]) out :=
  (schema_reads_iff (poolHeader ["x", "y"]) (poolHeader_columns _) FLAG_PACKED_BOOLS rfl [] [5] (Nat.dvd_zero 8)
    ⟨_, by decide +kernel⟩ rfl).mpr (by decide)

theorem schema_not_read : ¬ ∀ sch : ExtendedSchema, HeaderColumns sch → ∀ flags : ℕ,
    hasFlag flags FLAG_V13_COMPACT_MASK = true → ∀ pre post : Bytes, 8 ∣ pre.length → ∀ file : Slice,
    file.bytes = pre ++ buildExtendedSchema sch flags ++ post → ∃ out, SchemaReads file.bytes pre.length flags sch out := by
  intro h
  have hsmall : (buildExtendedSchema (poolHeader ["x\x00y"]) FLAG_PACKED_BOOLS).length < 2 ^ 63 := by decide +kernel
  obtain ⟨out, hreads⟩ := h (poolHeader ["x\x00y"]) (poolHeader_columns _) FLAG_PACKED_BOOLS rfl [] []
    (Nat.dvd_zero 8) ⟨_, hsmall⟩ (by rw [List.nil_append, List.append_nil])
  have hfits := parseExtendedSchema_fits hreads.parsed
  rw [hreads.valuePool] at hfits
  exact absurd hfits.2 (by decide)

/-! ## Promoted columns -/

section

variable (sigils : List UInt8) (vals : List (List String)) (maxRatio : F64) (minRecords : ℕ)

/-- The columns that are promoted. -/
def promotedColumns : List ℕ :=
  if (vals.map List.length).foldl max 0 < minRecords then []
  else (List.range sigils.length).filter fun slot =>
    sigils.getD slot 0 == SIGIL_STR && slot < vals.length && promotes (vals.getD slot []) maxRatio minRecords

/-- All their strings. -/
def promotedStrings : List String :=
  (promotedColumns sigils vals maxRatio minRecords).flatMap fun slot => vals.getD slot []

variable {sigils vals maxRatio minRecords}

theorem mem_promotedStrings {s : String} : s ∈ promotedStrings sigils vals maxRatio minRecords ↔
    ∃ slot ∈ promotedColumns sigils vals maxRatio minRecords, s ∈ vals.getD slot [] := by
  rw [promotedStrings, List.mem_flatMap]

theorem promotedColumns_sigil {slot : ℕ} (h : slot ∈ promotedColumns sigils vals maxRatio minRecords) :
    sigils.getD slot 0 = SIGIL_STR := by
  rw [promotedColumns] at h
  split at h
  · cases h
  · have hchosen := (List.mem_filter.mp h).2
    simp only [Bool.and_eq_true, beq_iff_eq] at hchosen
    exact hchosen.1.1

theorem scan_attrs (slot : ℕ) :
    hasFlag ((scanKeywordPromotion sigils vals maxRatio minRecords).1.getD slot 0).toNat FIELD_ATTR_PROMOTED = true ↔
      slot ∈ promotedColumns sigils vals maxRatio minRecords := by
  rw [scanKeywordPromotion, promotedColumns]
  dsimp only
  split
  · simp only [List.not_mem_nil, iff_false, Bool.not_eq_true, List.getD_eq_getElem?_getD, List.getElem?_replicate]
    split <;> rfl
  · dsimp only
    rw [List.mem_filter, List.mem_range, List.getD_eq_getElem?_getD (l := List.map _ _), List.getElem?_map]
    by_cases hslot : slot < sigils.length
    · rw [List.getElem?_range hslot, Option.map_some, Option.getD_some]
      split
      · rename_i hchosen
        exact iff_of_true rfl ⟨hslot, hchosen⟩
      · rename_i hchosen
        exact iff_of_false (by decide) fun h => hchosen h.2
    · rw [List.getElem?_eq_none (by rw [List.length_range]; omega), Option.map_none, Option.getD_none]
      exact iff_of_false (by decide) fun h => hslot h.1

theorem scan_pool : (scanKeywordPromotion sigils vals maxRatio minRecords).2 =
    (promotedStrings sigils vals maxRatio minRecords).foldl internKey [] := by
  rw [scanKeywordPromotion, promotedStrings, promotedColumns, List.foldl_flatMap]
  dsimp only
  split <;> rfl

/-- Marking the inline columns promotes none. -/
theorem scanU16StringLengths_promoted (attrs : List UInt8) (slot : ℕ) :
    hasFlag ((scanU16StringLengths sigils vals attrs).getD slot 0).toNat FIELD_ATTR_PROMOTED =
      hasFlag (attrs.getD slot 0).toNat FIELD_ATTR_PROMOTED := by
  rw [scanU16StringLengths, List.getD_eq_getElem?_getD (l := List.map _ _), List.getElem?_map]
  by_cases hslot : slot < attrs.length
  · rw [List.getElem?_range hslot, Option.map_some, Option.getD_some]
    dsimp only
    split
    · rename_i hinline
      rw [Bool.eq_false_iff.mpr hinline.2.1, hasFlag, UInt8.toNat_or, Nat.and_or_distrib_right]
      have hnot := hinline.2.1
      rw [hasFlag] at hnot
      have htwo : UInt8.toNat 2 &&& FIELD_ATTR_PROMOTED = 0 := rfl
      rw [htwo, Nat.or_zero]
      simpa using hnot
    · rfl
  · rw [List.getElem?_eq_none (by rw [List.length_range]; omega), Option.map_none, Option.getD_none,
      List.getD_eq_getElem?_getD, List.getElem?_eq_none (by omega), Option.getD_none]

end

/-- The attributes and the pool of `sch` are those of the scan, the inline columns being marked or not. -/
structure Scanned (sch : ExtendedSchema) (vals : List (List String)) (maxRatio : F64) (minRecords : ℕ) : Prop where
  fieldAttrs : sch.fieldAttrs = (scanKeywordPromotion sch.sigils vals maxRatio minRecords).1 ∨
    sch.fieldAttrs = scanU16StringLengths sch.sigils vals (scanKeywordPromotion sch.sigils vals maxRatio minRecords).1
  valuePool : sch.valuePool = (scanKeywordPromotion sch.sigils vals maxRatio minRecords).2

/-- The header that the writer builds is a scan of the strings that it has noted. -/
theorem buildExtendedSchema_scanned (w : NxsWriter) (opts : CompactOptions) (hopts : opts.keywordPromotion = true) :
    Scanned (w.buildExtendedSchema opts) w.stringCols opts.keywordMaxRatio opts.keywordMinRecords := by
  rw [NxsWriter.buildExtendedSchema, hopts]
  cases opts.u16StringLengths
  · exact ⟨Or.inl rfl, rfl⟩
  · exact ⟨Or.inr rfl, rfl⟩

/-- A cell with the string `s` in column `slot` is stored as `bytes`, wherever it stands. -/
def CellStores (sch : ExtendedSchema) (slot : ℕ) (s : String) (bytes : Bytes) : Prop :=
  bytes.length = 2 ∧ ∀ body plan, appendCell body slot (.str s) sch plan = .ok (padTo 2 body ++ bytes)

/-- What is read of the promoted cells with the header `read` that is parsed at `pos`. -/
structure PromotionKept (d : Bytes) (pos flags : ℕ) (sch : ExtendedSchema) (vals : List (List String))
    (read : ExtendedSchema) : Prop where
  parsed : ∃ stop, parseExtendedSchema d pos flags = .ok (read, stop)
  resolves : ∀ slot s, sch.isPromoted slot = true → s ∈ vals.getD slot [] →
    ∃ bytes, CellStores sch slot s bytes ∧ Reader.materialiseKeyword read slot (leNat bytes) = .ok s
  distinct : ∀ slot s slot' s' bytes, sch.isPromoted slot = true → s ∈ vals.getD slot [] →
    sch.isPromoted slot' = true → s' ∈ vals.getD slot' [] → CellStores sch slot s bytes → CellStores sch slot' s' bytes →
    s = s'

section

variable {sch : ExtendedSchema} {vals : List (List String)} {maxRatio : F64} {minRecords : ℕ}
  (hscan : Scanned sch vals maxRatio minRecords)

include hscan

theorem Scanned.isPromoted (slot : ℕ) :
    sch.isPromoted slot = true ↔ slot ∈ promotedColumns sch.sigils vals maxRatio minRecords := by
  rw [ExtendedSchema.isPromoted, ← scan_attrs]
  rcases hscan.fieldAttrs with hattrs | hattrs
  · rw [hattrs]
  · rw [hattrs, scanU16StringLengths_promoted]

/-- The pool has the strings of the promoted columns, each once. -/
theorem Scanned.mem_pool {s : String} : s ∈ sch.valuePool ↔ s ∈ promotedStrings sch.sigils vals maxRatio minRecords := by
  rw [hscan.valuePool, scan_pool]
  exact (firstSeen_internKey _).mem s

theorem Scanned.pool_nodup : sch.valuePool.Nodup := by
  rw [hscan.valuePool, scan_pool]
  exact (firstSeen_internKey _).nodup

theorem Scanned.pool_length :
    sch.valuePool.length = (promotedStrings sch.sigils vals maxRatio minRecords).dedup.length := by
  rw [hscan.valuePool, scan_pool, foldl_internKey_length]

theorem Scanned.mem_of_cell {slot : ℕ} {s : String} (hprom : sch.isPromoted slot = true) (hs : s ∈ vals.getD slot []) :
    s ∈ sch.valuePool :=
  hscan.mem_pool.mpr (mem_promotedStrings.mpr ⟨slot, (hscan.isPromoted slot).mp hprom, hs⟩)

theorem Scanned.cell_of_mem {s : String} (hs : s ∈ sch.valuePool) :
    ∃ slot, sch.isPromoted slot = true ∧ s ∈ vals.getD slot [] := by
  obtain ⟨slot, hslot, hmem⟩ := mem_promotedStrings.mp (hscan.mem_pool.mp hs)
  exact ⟨slot, (hscan.isPromoted slot).mpr hslot, hmem⟩

/-- The pool fits exactly when the strings of the promoted columns do. -/
theorem Scanned.fits_iff : PoolFits sch.valuePool ↔
    (promotedStrings sch.sigils vals maxRatio minRecords).dedup.length < 65536 ∧
      ∀ s ∈ promotedStrings sch.sigils vals maxRatio minRecords, NulFree s := by
  rw [poolFits_iff, hscan.pool_length]
  simp only [hscan.mem_pool]

end

/-- A promoted cell is stored as the index of its string in the pool. -/
theorem cellStores_idx {sch : ExtendedSchema} {slot : ℕ} {s : String} (hprom : sch.isPromoted slot = true)
    (hs : s ∈ sch.valuePool) : CellStores sch slot s (leBytes 2 (sch.valuePool.idxOf s)) := by
  refine ⟨leBytes_length 2 _, fun body plan => ?_⟩
  rw [appendCell_eq, appendAlign, if_pos hprom, appendBytes, if_pos hprom, ensure_of hs, ok_bind, map_ok]

theorem CellStores.unique {sch : ExtendedSchema} {slot : ℕ} {s : String} {b b' : Bytes} (h : CellStores sch slot s b)
    (h' : CellStores sch slot s b') : b = b' := by
  have hb := h.2 [] ⟨[], none, false, false, false, false, none, none⟩
  rw [h'.2] at hb
  exact (List.append_cancel_left (ok.inj hb)).symm

theorem materialiseKeyword_mem {read : ExtendedSchema} {slot i : ℕ} {s : String}
    (h : Reader.materialiseKeyword read slot i = .ok s) :
    (read.sigil slot = SIGIL_KEYWORD ∨ read.isPromoted slot = true) ∧ read.valuePool[i]? = some s := by
  rw [Reader.materialiseKeyword] at h
  split at h
  · rename_i hkind
    refine ⟨hkind, ?_⟩
    cases hget : read.valuePool[i]? with
    | none =>
      rw [hget] at h
      cases h
    | some t =>
      rw [hget] at h
      cases h
      rfl
  · cases h

theorem materialiseKeyword_of {read : ExtendedSchema} {slot i : ℕ} {s : String} (hprom : read.isPromoted slot = true)
    (hget : read.valuePool[i]? = some s) : Reader.materialiseKeyword read slot i = .ok s := by
  rw [Reader.materialiseKeyword, if_pos (Or.inr hprom), hget]
  rfl

section

variable {sch read : ExtendedSchema} {vals : List (List String)} {maxRatio : F64} {minRecords flags pos : ℕ} {d : Bytes}
  (hscan : Scanned sch vals maxRatio minRecords)

include hscan

/-- All strings of the pool are read. -/
theorem PromotionKept.pool_sub (h : PromotionKept d pos flags sch vals read) :
    ∀ s ∈ sch.valuePool, s ∈ read.valuePool := by
  intro s hs
  obtain ⟨slot, hprom, hmem⟩ := hscan.cell_of_mem hs
  obtain ⟨bytes, -, hread⟩ := h.resolves slot s hprom hmem
  exact List.mem_of_getElem? (materialiseKeyword_mem hread).2

theorem PromotionKept.fits (h : PromotionKept d pos flags sch vals read) : PoolFits sch.valuePool := by
  obtain ⟨stop, hparsed⟩ := h.parsed
  obtain ⟨hcount, hnul⟩ := parseExtendedSchema_fits hparsed
  have hsub := h.pool_sub hscan
  have hle : sch.valuePool.length ≤ read.valuePool.length := (List.subperm_of_subset hscan.pool_nodup hsub).length_le
  exact ⟨hle.trans_lt hcount, fun s hs => hnul s (hsub s hs)⟩

/-- Without a compact flag the attributes are not in the header. -/
theorem PromotionKept.flagged {pre post : Bytes} {file : Slice} (hcols : HeaderColumns sch) (h8 : 8 ∣ pre.length)
    (hfile : file.bytes = pre ++ buildExtendedSchema sch flags ++ post)
    (h : PromotionKept file.bytes pre.length flags sch vals read) :
    sch.valuePool = [] ∨ hasFlag flags FLAG_V13_COMPACT_MASK = true := by
  by_contra hnot
  rw [not_or, Bool.not_eq_true] at hnot
  obtain ⟨hpool, hflags⟩ := hnot
  obtain ⟨s, hs⟩ := List.exists_mem_of_ne_nil _ hpool
  obtain ⟨slot, hprom, hmem⟩ := hscan.cell_of_mem hs
  obtain ⟨bytes, -, hread⟩ := h.resolves slot s hprom hmem
  obtain ⟨stop, hparsed⟩ := h.parsed
  rw [header_parsed hcols h8 hfile (h.fits hscan), hflags] at hparsed
  cases hparsed
  rcases (materialiseKeyword_mem hread).1 with hsigil | hpromoted
  · have hstr : sch.sigils.getD slot 0 = SIGIL_STR := promotedColumns_sigil ((hscan.isPromoted slot).mp hprom)
    rw [ExtendedSchema.sigil, hstr] at hsigil
    exact absurd hsigil (by decide)
  · have hzeros : blockBytes sch.keys.length sch.fieldAttrs false = List.replicate sch.keys.length 0 := rfl
    rw [ExtendedSchema.isPromoted, hzeros, List.getD_eq_getElem?_getD,
      List.getElem?_replicate] at hpromoted
    split at hpromoted <;> exact absurd hpromoted (by decide)

end

/-- The promoted cells are read back as they were exactly when their distinct strings are fewer than 65536 and without
NUL bytes, and, where there are any, a compact flag is set. -/
theorem promotion_kept_iff (sch : ExtendedSchema) (hcols : HeaderColumns sch) (vals : List (List String))
    (maxRatio : F64) (minRecords : ℕ) (hscan : Scanned sch vals maxRatio minRecords) (flags : ℕ) (pre post : Bytes)
    (h8 : 8 ∣ pre.length) (file : Slice) (hfile : file.bytes = pre ++ buildExtendedSchema sch flags ++ post) :
    (∃ read, PromotionKept file.bytes pre.length flags sch vals read) ↔
      (promotedStrings sch.sigils vals maxRatio minRecords).dedup.length < 65536 ∧
        (∀ s ∈ promotedStrings sch.sigils vals maxRatio minRecords, NulFree s) ∧
        (promotedStrings sch.sigils vals maxRatio minRecords = [] ∨ hasFlag flags FLAG_V13_COMPACT_MASK = true) := by
  have hempty : sch.valuePool = [] ↔ promotedStrings sch.sigils vals maxRatio minRecords = [] := by
    simp only [List.eq_nil_iff_forall_not_mem, hscan.mem_pool]
  rw [← and_assoc, ← hscan.fits_iff, ← hempty]
  constructor
  · rintro ⟨read, hkept⟩
    exact ⟨hkept.fits hscan, hkept.flagged hscan hcols h8 hfile⟩
  · rintro ⟨hfits, hflagged⟩
    refine ⟨_, ⟨_, header_parsed hcols h8 hfile hfits⟩, fun slot s hprom hs => ?_,
      fun slot s slot' s' bytes hprom hs hprom' hs' hstores hstores' => ?_⟩
    · have hmem := hscan.mem_of_cell hprom hs
      have hidx : sch.valuePool.idxOf s < 65536 := (List.idxOf_lt_length_of_mem hmem).trans hfits.1
      have hflags : hasFlag flags FLAG_V13_COMPACT_MASK = true := by
        rcases hflagged with hnil | hflags
        · rw [hnil] at hmem
          cases hmem
        · exact hflags
      have hget := List.getElem?_eq_getElem (List.idxOf_lt_length_of_mem hmem)
      rw [List.getElem_idxOf] at hget
      refine ⟨_, cellStores_idx hprom hmem, ?_⟩
      rw [leNat_leBytes hidx, hflags, blockBytes_of_length hcols.fieldAttrs]
      exact materialiseKeyword_of hprom hget
    · have hmem := hscan.mem_of_cell hprom hs
      have hmem' := hscan.mem_of_cell hprom' hs'
      have heq := (hstores.unique (cellStores_idx hprom hmem)).symm.trans
        (hstores'.unique (cellStores_idx hprom' hmem'))
      have hidx := congrArg leNat heq
      rw [leNat_leBytes ((List.idxOf_lt_length_of_mem hmem).trans hfits.1),
        leNat_leBytes ((List.idxOf_lt_length_of_mem hmem').trans hfits.1)] at hidx
      exact (List.idxOf_inj hmem).mp hidx

theorem scanned_pool {sch : ExtendedSchema} {vals : List (List String)} {maxRatio : F64} {minRecords : ℕ}
    (h : scanKeywordPromotion sch.sigils vals maxRatio minRecords = (sch.fieldAttrs, sch.valuePool)) :
    Scanned sch vals maxRatio minRecords :=
  ⟨Or.inl (by rw [h]), by rw [h]⟩

/-- With the default ratio of one half, one string is promoted where it stands twice. -/
theorem promotion_kept_two : ∃ read, PromotionKept (buildExtendedSchema (poolHeader ["x"]) FLAG_PACKED_BOOLS ++ [5])
    0 FLAG_PACKED_BOOLS (poolHeader ["x"]) [["x", "x"]] read :=
  (promotion_kept_iff (poolHeader ["x"]) (poolHeader_columns _) [["x", "x"]] ⟨0x3FE0000000000000⟩ 2
    (scanned_pool (by decide +kernel)) FLAG_PACKED_BOOLS [] [5] (Nat.dvd_zero 8) ⟨_, by decide +kernel⟩
    rfl).mpr (by decide +kernel)

theorem promotion_not_kept : ¬ ∀ sch : ExtendedSchema, HeaderColumns sch → ∀ (vals : List (List String)) (maxRatio : F64)
    (minRecords : ℕ), Scanned sch vals maxRatio minRecords → ∀ flags : ℕ, hasFlag flags FLAG_V13_COMPACT_MASK = true →
    ∀ pre post : Bytes, 8 ∣ pre.length → ∀ file : Slice, file.bytes = pre ++ buildExtendedSchema sch flags ++ post →
    ∃ read, PromotionKept file.bytes pre.length flags sch vals read := by
  intro h
  have hscan : Scanned (poolHeader ["x\x00y"]) [["x\x00y", "x\x00y"]] ⟨0x3FE0000000000000⟩ 2 :=
    scanned_pool (by decide +kernel)
  have hsmall : (buildExtendedSchema (poolHeader ["x\x00y"]) FLAG_PACKED_BOOLS).length < 2 ^ 63 := by decide +kernel
  obtain ⟨read, hkept⟩ := h (poolHeader ["x\x00y"]) (poolHeader_columns _) [["x\x00y", "x\x00y"]] ⟨0x3FE0000000000000⟩ 2
    hscan FLAG_PACKED_BOOLS rfl [] [] (Nat.dvd_zero 8) ⟨_, hsmall⟩ (by rw [List.nil_append, List.append_nil])
  exact absurd (hkept.fits hscan).2 (by decide)

end Nyxis

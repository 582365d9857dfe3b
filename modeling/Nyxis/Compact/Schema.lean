import Nyxis.Column
import Nyxis.Schema

/-!
# Compact.Schema — v1.3 options and the extended schema header

`CompactOptions` selects the encodings, `ExtendedSchema` is what a v1.3 header says about the
columns: widths, attributes and the pool of promoted strings.  `buildExtendedSchema` writes it and
`parseExtendedSchema` reads it.

* `parse_buildExtendedSchema`: a header with NUL-free keys and pool strings is read back.
-/

namespace Nyxis

open Lib Lib.Outcome

/-! ## Options -/

structure CompactOptions where
  denseFrames : Bool
  packedBools : Bool
  narrowCells : Bool
  deltaTail : Bool
  keywordPromotion : Bool
  keywordMaxRatio : F64
  keywordMinRecords : ℕ
  deltaBlockSize : ℕ
  u16StringLengths : Bool
  denseWireReorder : Bool
  deriving DecidableEq, Repr

namespace CompactOptions

/-- `CompactOptions::default()`. -/
def default : CompactOptions where
  denseFrames := false
  packedBools := false
  narrowCells := false
  deltaTail := false
  keywordPromotion := false
  keywordMaxRatio := ⟨0x3FE0000000000000⟩ -- 0.5
  keywordMinRecords := 32
  deltaBlockSize := 1024
  u16StringLengths := false
  denseWireReorder := false

/-- All compact encodings, with keyword inference. -/
def compact : CompactOptions where
  denseFrames := true
  packedBools := true
  narrowCells := true
  deltaTail := true
  keywordPromotion := true
  keywordMaxRatio := ⟨0x3FE0000000000000⟩
  keywordMinRecords := 32
  deltaBlockSize := 1024
  u16StringLengths := true
  denseWireReorder := true

def anyWireFlag (o : CompactOptions) : Bool :=
  o.denseFrames || o.packedBools || o.narrowCells || o.deltaTail

def preambleFlags (o : CompactOptions) : ℕ :=
  (if o.denseFrames then FLAG_DENSE_FRAMES else 0) |||
    (if o.packedBools then FLAG_PACKED_BOOLS else 0) |||
    (if o.narrowCells then FLAG_NARROW_CELLS else 0) |||
    (if o.deltaTail then FLAG_DELTA_TAIL else 0) |||
    (if o.denseWireReorder then FLAG_DENSE_WIRE_REORDER else 0)

def version (o : CompactOptions) : ℕ := if o.anyWireFlag then VERSION_V13 else VERSION

end CompactOptions

/-- Attribute bit: a string field promoted to an index of the value pool. -/
def FIELD_ATTR_PROMOTED : ℕ := 0x01
/-- Attribute bit: inline strings have a `u16` length prefix. -/
def FIELD_ATTR_U16_LEN : ℕ := 0x02

/-! ## The extended schema -/

structure ExtendedSchema where
  keys : List String
  sigils : List UInt8
  widths : List UInt8
  fieldAttrs : List UInt8
  valuePool : List String
  deriving DecidableEq, Repr

namespace ExtendedSchema

/-- The sigil of a slot below `keys.len()`. -/
def sigil (sch : ExtendedSchema) (slot : ℕ) : UInt8 := sch.sigils.getD slot 0

def isPromoted (sch : ExtendedSchema) (slot : ℕ) : Bool :=
  hasFlag (sch.fieldAttrs.getD slot 0).toNat FIELD_ATTR_PROMOTED

def isU16Len (sch : ExtendedSchema) (slot : ℕ) : Bool :=
  hasFlag (sch.fieldAttrs.getD slot 0).toNat FIELD_ATTR_U16_LEN

/-- Bytes of the length prefix of an inline string (0 when promoted). -/
def strLenPrefix (sch : ExtendedSchema) (slot : ℕ) : ℕ :=
  if sch.isPromoted slot then 0 else if sch.isU16Len slot then 2 else 4

def cellWidth (sch : ExtendedSchema) (slot : ℕ) : ℕ :=
  if sch.isPromoted slot || sch.sigil slot == SIGIL_KEYWORD then 2
  else
    let w := (sch.widths.getD slot 0).toNat
    if w = 0 then 8 else w

def boolSlots (sch : ExtendedSchema) : List ℕ :=
  (List.range sch.sigils.length).filter fun i => sch.sigil i == SIGIL_BOOL

end ExtendedSchema

/-- Schema bytes with the v1.3 extensions that `flags` asks for. -/
def buildExtendedSchema (sch : ExtendedSchema) (flags : ℕ) : Bytes :=
  let n := sch.keys.length
  let b := padTo 8 (leBytes 2 n ++ sch.sigils ++ strTable sch.keys)
  let b := if hasFlag flags FLAG_NARROW_CELLS then
      b ++ (List.range n).map fun i => sch.widths.getD i 0
    else b
  let b := if hasFlag flags FLAG_V13_COMPACT_MASK then
      b ++ (List.range n).map fun i => sch.fieldAttrs.getD i 0
    else b
  let b := b ++ leBytes 2 sch.valuePool.length
  if sch.valuePool.isEmpty then b else padTo 8 (b ++ strTable sch.valuePool)

/-- `n` bytes from `p` on. -/
def takeBytes (d : Bytes) (p n : ℕ) : Res (Bytes × ℕ) := do
  let stop ← okOr (checkedAdd p n) .outOfBounds
  ensure (¬ stop > d.length) .outOfBounds
  let bytes ← range d p stop
  .ok (bytes, stop)

/-- The value pool at `p`, where there is room for its count. -/
def parseValuePool (d : Bytes) (p : ℕ) : Res (List String × ℕ) := do
  let stop ← usizeAdd p 2
  if stop ≤ d.length then do
    let valueCount ← readLE d p 2
    if valueCount > 0 then do
      let (pool, p) ← readStrings "invalid UTF-8 in value pool" d valueCount stop
      .ok (pool, align8 p)
    else .ok ([], stop)
  else .ok ([], p)

/-- An optional block with a byte for each of `n` keys. -/
def takeColumnBytes (d : Bytes) (p n : ℕ) (given : Bool) : Res (Bytes × ℕ) :=
  if given then takeBytes d p n else .ok (List.replicate n 0, p)

def parseExtendedSchema (d : Bytes) (pos flags : ℕ) : Res (ExtendedSchema × ℕ) := do
  let p ← usizeAdd pos 2
  ensure (¬ p > d.length) .outOfBounds
  let keyCount ← readLE d pos 2
  ensure (¬ keyCount > 256) .outOfBounds
  let (sigils, p) ← takeBytes d p keyCount
  let (keys, p) ← readStrings "invalid UTF-8 in schema" d keyCount p
  let p := align8 p
  let (widths, p) ← takeColumnBytes d p keyCount (hasFlag flags FLAG_NARROW_CELLS)
  let (fieldAttrs, p) ← takeColumnBytes d p keyCount (hasFlag flags FLAG_V13_COMPACT_MASK)
  let (valuePool, p) ← parseValuePool d p
  ensure (¬ p > d.length) .outOfBounds
  .ok (⟨keys, sigils, widths, fieldAttrs, valuePool⟩, p)

/-! ## What the writer infers for a column -/

def inferIntWidth (min max : Int64) : UInt8 :=
  if min ≥ 0 ∧ max ≤ 255 then 1
  else if min ≥ -32768 ∧ max ≤ 32767 then 2
  else if min ≥ -2147483648 ∧ max ≤ 2147483647 then 4
  else 8

/-- Narrow widths from the observed integer ranges. -/
def inferNarrowWidths (sigils : List UInt8) (mins maxs : List Int64) : List UInt8 :=
  (List.range sigils.length).map fun i =>
    let s := sigils.getD i 0
    if s = SIGIL_INT then inferIntWidth (mins.getD i 0) (maxs.getD i 0)
    else if s = SIGIL_FLOAT then 8
    else 0

/-- The pool after `intern_value`; the index it returns is not used by the callers. -/
def internValue (pool : List String) (s : String) : List String :=
  if s ∈ pool then pool else pool ++ [s]

/-- The column of `slot` is promoted: `distinct / len ≤ max_ratio` and enough records. -/
def promotes (vals : List String) (maxRatio : F64) (minRecords : ℕ) : Bool :=
  !(vals.length < minRecords) && !vals.dedup.isEmpty &&
    !(maxRatio.lt (F64.natDiv vals.dedup.length vals.length))

/-- Keyword promotion: the attributes of the columns and the value pool. -/
def scanKeywordPromotion (sigils : List UInt8) (stringValues : List (List String)) (maxRatio : F64)
    (minRecords : ℕ) : List UInt8 × List String :=
  let recordCount := (stringValues.map List.length).foldl max 0
  if recordCount < minRecords then (List.replicate sigils.length 0, [])
  else
    let chosen := fun slot =>
      sigils.getD slot 0 == SIGIL_STR && slot < stringValues.length &&
        promotes (stringValues.getD slot []) maxRatio minRecords
    ((List.range sigils.length).map fun slot => if chosen slot then 1 else 0,
      ((List.range sigils.length).filter chosen).foldl
        (fun pool slot => (stringValues.getD slot []).foldl internValue pool) [])

/-- Marks the inline string columns whose values fit a `u16` length. -/
def scanU16StringLengths (sigils : List UInt8) (stringValues : List (List String))
    (fieldAttrs : List UInt8) : List UInt8 :=
  (List.range fieldAttrs.length).map fun slot =>
    let a := fieldAttrs.getD slot 0
    if sigils.getD slot 0 = SIGIL_STR ∧ ¬ hasFlag a.toNat FIELD_ATTR_PROMOTED ∧
        slot < stringValues.length ∧
        ((stringValues.getD slot []).map fun s => (utf8 s).length).foldl max 0 ≤ 65535 then
      a ||| 2
    else a

/-! ## Round trip -/

/-- An optional block with a byte of `l` for each of `n` keys. -/
def columnBlock (n : ℕ) (l : Bytes) (given : Bool) : Bytes :=
  if given then (List.range n).map fun i => l.getD i 0 else []

/-- What is read of such a block: zeros where it is not given. -/
def blockBytes (n : ℕ) (l : Bytes) (given : Bool) : Bytes :=
  if given then (List.range n).map fun i => l.getD i 0 else List.replicate n 0

/-- The value pool behind `b`. -/
def poolBlock (b : Bytes) (pool : List String) : Bytes :=
  if pool.isEmpty then b ++ leBytes 2 pool.length else padTo 8 (b ++ leBytes 2 pool.length ++ strTable pool)

theorem buildExtendedSchema_eq (sch : ExtendedSchema) (flags : ℕ) :
    buildExtendedSchema sch flags = poolBlock (padTo 8 (leBytes 2 sch.keys.length ++ sch.sigils ++ strTable sch.keys) ++
      columnBlock sch.keys.length sch.widths (hasFlag flags FLAG_NARROW_CELLS) ++
      columnBlock sch.keys.length sch.fieldAttrs (hasFlag flags FLAG_V13_COMPACT_MASK)) sch.valuePool := by
  unfold buildExtendedSchema poolBlock columnBlock
  cases hasFlag flags FLAG_NARROW_CELLS <;> cases hasFlag flags FLAG_V13_COMPACT_MASK <;> simp

theorem takeBytes_at {d seg : Bytes} {p : ℕ} (hd : d.length < 2 ^ 63) (hat : At d p seg) :
    takeBytes d p seg.length = .ok (seg, p + seg.length) := by
  have hle := hat.le
  rw [takeBytes, checkedAdd_of (by omega), okOr_ok, ok_bind, ensure_of (by omega), ok_bind, range_at hat, ok_bind]

theorem takeColumnBytes_at {d l : Bytes} {p n : ℕ} {given : Bool} (hd : d.length < 2 ^ 63)
    (hat : At d p (columnBlock n l given)) :
    takeColumnBytes d p n given = .ok (blockBytes n l given, p + (columnBlock n l given).length) := by
  cases given with
  | false => rfl
  | true =>
    have h := takeBytes_at hd hat
    have hlen : (columnBlock n l true).length = n := by
      rw [columnBlock, if_pos rfl, List.length_map, List.length_range]
    rw [hlen] at h ⊢
    exact h

theorem align8_of_dvd {pos : ℕ} (h : 8 ∣ pos) (n : ℕ) : align8 (pos + n) = pos + (n + padLen 8 n) := by
  obtain ⟨k, rfl⟩ := h
  unfold align8 padLen
  split <;> omega

theorem parseValuePool_at {d b : Bytes} {pos : ℕ} {pool : List String} (hd : d.length < 2 ^ 63) (h8 : 8 ∣ pos)
    (hat : At d pos (poolBlock b pool)) (hcount : pool.length < 65536) (hnul : ∀ s ∈ pool, NulFree s) :
    parseValuePool d (pos + b.length) = .ok (pool, pos + (poolBlock b pool).length) := by
  have hle := hat.le
  rw [parseValuePool]
  rw [poolBlock] at hat hle ⊢
  cases pool with
  | nil =>
    rw [List.isEmpty_nil, if_pos rfl] at hat hle ⊢
    rw [List.length_append, leBytes_length] at hle ⊢
    rw [at_append] at hat
    rw [usizeAdd_of (by omega), ok_bind, if_pos (by omega), readLE_leBytes hat.2 (by decide) hd, ok_bind]
    rfl
  | cons s rest =>
    rw [List.isEmpty_cons, if_neg Bool.false_ne_true] at hat hle ⊢
    rw [padTo_length, List.length_append, List.length_append, leBytes_length] at hle
    rw [padTo, at_append, at_append, at_append] at hat
    obtain ⟨⟨⟨-, hn⟩, htab⟩, -⟩ := hat
    rw [List.length_append, leBytes_length, ← Nat.add_assoc] at htab
    rw [usizeAdd_of (by omega), ok_bind, if_pos (by omega), readLE_leBytes hn (by omega) hd, ok_bind,
      if_pos (by rw [List.length_cons]; omega), readStrings_strTable _ hnul htab, ok_bind]
    dsimp only
    rw [padTo_length, List.length_append, List.length_append, leBytes_length,
      ← align8_of_dvd h8, ← Nat.add_assoc, ← Nat.add_assoc]

/-- A v1.3 header is parsed to what it was built from.  The flags of the file also say that it has a schema. -/
theorem parse_buildExtendedSchema {d : Bytes} {pos flags flags' : ℕ} {sch : ExtendedSchema} (hd : d.length < 2 ^ 63)
    (hat : At d pos (buildExtendedSchema sch flags)) (h8 : 8 ∣ pos)
    (hnarrow : hasFlag flags' FLAG_NARROW_CELLS = hasFlag flags FLAG_NARROW_CELLS)
    (hmask : hasFlag flags' FLAG_V13_COMPACT_MASK = hasFlag flags FLAG_V13_COMPACT_MASK)
    (hkeys : sch.keys.length ≤ 256) (hsigils : sch.sigils.length = sch.keys.length)
    (hnul : ∀ k ∈ sch.keys, NulFree k) (hcount : sch.valuePool.length < 65536) (hpool : ∀ s ∈ sch.valuePool, NulFree s) :
    parseExtendedSchema d pos flags' =
      .ok (⟨sch.keys, sch.sigils, blockBytes sch.keys.length sch.widths (hasFlag flags FLAG_NARROW_CELLS),
        blockBytes sch.keys.length sch.fieldAttrs (hasFlag flags FLAG_V13_COMPACT_MASK), sch.valuePool⟩,
        pos + (buildExtendedSchema sch flags).length) := by
  rw [buildExtendedSchema_eq] at hat ⊢
  set header := padTo 8 (leBytes 2 sch.keys.length ++ sch.sigils ++ strTable sch.keys) with hheader
  set widths := columnBlock sch.keys.length sch.widths (hasFlag flags FLAG_NARROW_CELLS) with hwidths
  set attrs := columnBlock sch.keys.length sch.fieldAttrs (hasFlag flags FLAG_V13_COMPACT_MASK) with hattrs
  have hle := hat.le
  have hb : At d pos (header ++ widths ++ attrs) := by
    rw [poolBlock] at hat
    split at hat
    · exact (at_append.mp hat).1
    · rw [padTo, at_append, at_append, at_append] at hat
      exact hat.1.1.1
  have hroom := hb.le
  obtain ⟨hpair, hat3⟩ := at_append.mp hb
  obtain ⟨hat1, hat2⟩ := at_append.mp hpair
  rw [List.length_append, List.length_append] at hroom
  rw [hheader, padTo, at_append, at_append, at_append] at hat1
  obtain ⟨⟨⟨hn, hsig⟩, htab⟩, -⟩ := hat1
  rw [leBytes_length] at hsig
  rw [List.length_append, leBytes_length, ← Nat.add_assoc] at htab
  have hlen : header.length = 2 + sch.sigils.length + (strTable sch.keys).length +
      padLen 8 (2 + sch.sigils.length + (strTable sch.keys).length) := by
    rw [hheader, padTo_length, List.length_append, List.length_append, leBytes_length]
  have halign : align8 (pos + 2 + sch.sigils.length + (strTable sch.keys).length) = pos + header.length := by
    rw [hlen, show pos + 2 + sch.sigils.length + (strTable sch.keys).length =
      pos + (2 + sch.sigils.length + (strTable sch.keys).length) by omega, align8_of_dvd h8]
  have hsigs := takeBytes_at hd hsig
  rw [hsigils] at hsigs
  have hwid := takeColumnBytes_at hd hat2
  have hatt : takeColumnBytes d (pos + header.length + widths.length) sch.keys.length
      (hasFlag flags FLAG_V13_COMPACT_MASK) = _ := takeColumnBytes_at hd (by
    rw [List.length_append, ← Nat.add_assoc] at hat3
    exact hat3)
  have hval := parseValuePool_at hd h8 hat hcount hpool
  rw [parseExtendedSchema, usizeAdd_of (by omega), ok_bind, ensure_of (by omega), ok_bind,
    readLE_leBytes hn (by omega) hd, ok_bind, ensure_of (by omega), ok_bind, hsigs, ok_bind]
  dsimp only
  rw [readStrings_strTable _ hnul (hsigils ▸ htab), ok_bind]
  dsimp only
  rw [hsigils] at halign
  rw [halign, hnarrow, hwid, ok_bind]
  dsimp only
  rw [hmask, hatt, ok_bind]
  dsimp only
  rw [show pos + header.length + widths.length + attrs.length = pos + (header ++ widths ++ attrs).length by
    simp only [List.length_append]; omega, hval, ok_bind]
  dsimp only
  rw [ensure_of (by omega), ok_bind]

end Nyxis

import Nyxis.Compact.Plan

/-!
# Reader — opening a file and reading its records

`Reader.new` validates the header and finds the schema, the record count and the tail.  A record is
identified by its `offset`: the position of its object in the row layout, its index in the columnar
and PAX layouts.  `getI64`, `getF64`, `getBool` and `getStr` are the typed getters.
-/

namespace Nyxis

open Lib Lib.Outcome

inductive Layout where
  | row
  | columnar
  | pax
  deriving DecidableEq, Repr

/-- Preamble flag combinations that no reader accepts. -/
def validatePreambleFlags (flags : ℕ) : Res Unit := do
  let col := hasFlag flags FLAG_COLUMNAR
  let pax := hasFlag flags FLAG_PAX
  ensure (¬ (col && pax)) .invalidFlags
  ensure (¬ ((col || pax) && !hasFlag flags FLAG_SCHEMA_EMBEDDED))
    (.parseError "columnar/PAX requires FLAG_SCHEMA_EMBEDDED")
  ensure (¬ (hasFlag flags FLAG_V13_COMPACT_MASK && (col || pax))) .incompatibleFlags

def footerSize (flags : ℕ) : ℕ :=
  if hasFlag flags FLAG_PAX then 28 else if hasFlag flags FLAG_COLUMNAR then 20 else 12

/-- An open file (its prefetch caches aside). -/
structure Reader where
  data : Bytes
  flags : ℕ
  keys : List String
  keySigils : List UInt8
  extSchema : Option ExtendedSchema
  cellPlan : Option RowCellPlan
  recordCount : ℕ
  tailStart : ℕ
  deltaTail : Option DeltaTailLayout
  layout : Layout
  colBufOff : List ℕ
  colBufLen : List ℕ
  deriving DecidableEq, Repr

/-! ## Opening a file -/

/-- One entry of the column table, entered in the offsets and lengths so far. -/
def readColumnEntry (d : Bytes) (tailPtr kc : ℕ) (acc : List ℕ × List ℕ) (i : ℕ) :
    Res (List ℕ × List ℕ) := do
  let e := tailPtr + i * 20
  let fid ← readLE d e 2
  ensure (fid < kc) .outOfBounds
  let off ← readLE d (e + 4) 8
  let len ← readLE d (e + 12) 8
  .ok (acc.1.set fid off, acc.2.set fid len)

/-- The column table of a columnar file: offsets and lengths by field. -/
def readColumnTable (d : Bytes) (tailPtr kc : ℕ) : Res (List ℕ × List ℕ) :=
  (List.range kc).foldlM (readColumnEntry d tailPtr kc) (List.replicate kc 0, List.replicate kc 0)

/-- What `Reader::new` knows once the schema is parsed. -/
def Reader.openTail (d : Bytes) (flags preambleTail : ℕ) (keys : List String)
    (sigils : List UInt8) (ext : Option ExtendedSchema) (plan : Option RowCellPlan) : Res Reader :=
  let fo := d.length - footerSize flags
  if hasFlag flags FLAG_COLUMNAR then do
    let tailPtr ← readLE d fo 8
    let recordCount ← readLE d (fo + 8) 8
    let kc := keys.length
    let tableLen ← okOr (checkedMul kc 20) .outOfBounds
    let tailEnd ← okOr (checkedAdd tailPtr tableLen) .outOfBounds
    ensure (¬ (tailPtr ≥ fo ∨ tailEnd > fo)) .outOfBounds
    let (off, len) ← readColumnTable d tailPtr kc
    .ok ⟨d, flags, keys, sigils, ext, plan, recordCount, tailPtr, none, .columnar, off, len⟩
  else if hasFlag flags FLAG_PAX then do
    let tailPtr ← readLE d fo 8
    let recordCount ← readLE d (fo + 8) 8
    .ok ⟨d, flags, keys, sigils, ext, plan, recordCount, tailPtr, none, .pax, [], []⟩
  else do
    let tailPtr ←
      if preambleTail = 0 then do
        ensure (¬ d.length < 44) .outOfBounds
        readLE d (d.length - 12) 8
      else .ok preambleTail
    ensure (¬ tailPtr > d.length - 4) .outOfBounds
    if hasFlag flags FLAG_DELTA_TAIL then do
      let layout ← parseDeltaTailLayout d tailPtr
      .ok ⟨d, flags, keys, sigils, ext, plan, layout.recordCount, tailPtr, some layout, .row, [], []⟩
    else do
      let recordCount ← readLE d tailPtr 4
      .ok ⟨d, flags, keys, sigils, ext, plan, recordCount, tailPtr + 4, none, .row, [], []⟩

def Reader.new (file : Slice) : Res Reader := do
  let d := file.bytes
  ensure (¬ d.length < 32) .outOfBounds
  let magic ← readLE d 0 4
  ensure (magic = MAGIC_FILE) .badMagic
  let footer ← readLE d (d.length - 4) 4
  ensure (footer = MAGIC_FOOTER) .badMagic
  let flags ← readLE d 6 2
  validatePreambleFlags flags
  let preambleTail ← readLE d 16 8
  if hasFlag flags FLAG_SCHEMA_EMBEDDED then
    if hasFlag flags FLAG_V13_COMPACT_MASK then do
      let (ext, _) ← parseExtendedSchema d 32 flags
      let plan := RowCellPlan.new ext flags
      Reader.openTail d flags preambleTail ext.keys ext.sigils (some ext) (some plan)
    else do
      let (keys, sigils, _) ← parseSchema d 32
      Reader.openTail d flags preambleTail keys sigils none none
  else Reader.openTail d flags preambleTail [] [] none none

namespace Reader

variable (r : Reader)

/-! ## Keys and records -/

/-- `key_index` maps a key to its last position. -/
def slot (key : String) : Opt ℕ :=
  if key ∈ r.keys then .ok (r.keys.length - 1 - r.keys.reverse.idxOf key) else none'

/-- The sigil of a slot. -/
def keySigil (slot : ℕ) : Opt UInt8 := .ofOption r.keySigils[slot]?

def rowRecordOffset (i : ℕ) : Opt ℕ :=
  match r.deltaTail with
  | some dt => (deltaRecordOffset r.data dt i).toOpt
  | none => do
    let rel ← usizeMul i 10
    let entry ← usizeAdd r.tailStart rel
    let p ← usizeAdd entry 2
    getLE r.data p 8

/-- The offset that identifies record `i`. -/
def record (i : ℕ) : Opt ℕ := do
  ensure (¬ i ≥ r.recordCount) ()
  if r.layout = .row then r.rowRecordOffset i else .ok i

/-! ## Columns of a columnar file -/

/-- The sector of a column. -/
def colSector (slot : ℕ) : Res Bytes := do
  let off ← okOr (.ofOption r.colBufOff[slot]?) .outOfBounds
  let len ← okOr (.ofOption r.colBufLen[slot]?) .outOfBounds
  let stop ← okOr (checkedAdd off len) .outOfBounds
  ensure (¬ stop > r.data.length) .outOfBounds
  range r.data off stop

def colFieldVarParts (slot : ℕ) : Res (Bytes × Bytes × Bytes) := do
  let sector ← r.colSector slot
  colVarParts sector r.recordCount

def colFieldParts (slot : ℕ) : Res (Bytes × Bytes) := do
  ensure (¬ ((r.keySigils[slot]?).map isVarSigil).getD false) .unsupportedFieldType
  let sector ← r.colSector slot
  let bmLen ← nullBitmapLen r.recordCount
  let valsLen := min (r.recordCount * 8) (2 ^ 64 - 1) -- `saturating_mul`
  let valsEnd ← okOr (checkedAdd bmLen valsLen) .outOfBounds
  ensure (¬ sector.length < valsEnd) .outOfBounds
  let bm ← range sector 0 bmLen
  let vals ← range sector bmLen valsEnd
  .ok (bm, vals)

/-- The first `w` bytes of cell `ri` of a fixed-width column, where it is populated. -/
def colGetWord (w slot ri : ℕ) : Opt ℕ := do
  let sig ← r.keySigil slot
  ensure (¬ isVarSigil sig) ()
  let (bm, vals) ← (r.colFieldParts slot).toOpt
  let set ← bitAt bm ri
  ensure (set = true) ()
  let off ← usizeMul ri 8
  getLE vals off w

def colGetStr (slot ri : ℕ) : Opt String := do
  ensure (r.keySigils[slot]? = some SIGIL_STR) ()
  let (bm, offsets, values) ← (r.colFieldVarParts slot).toOpt
  let set ← bitAt bm ri
  ensure (set = true) ()
  varStrAt offsets values ri

/-! ## Pages of a PAX file -/

def pageCount : Opt ℕ :=
  if r.layout ≠ .pax then .ok 0
  else if r.tailStart > r.data.length - 4 then .ok 0
  else readLE r.data (r.data.length - 28 + 16) 4

/-- A field of the tail-index entry of a page: the `w` bytes from `field` on. -/
def paxEntry (pageIdx field w : ℕ) : Opt ℕ := do
  let rel ← checkedMul pageIdx 28
  let e ← checkedAdd r.tailStart rel
  let start ← checkedAdd e field
  let stop ← checkedAdd e (field + w)
  let bytes ← getRange r.data start stop
  .ok (leNat bytes)

def paxPageRecStart (pageIdx : ℕ) : Opt ℕ := r.paxEntry pageIdx 4 8

def paxPageRecCount (pageIdx : ℕ) : Opt ℕ := r.paxEntry pageIdx 12 4

/-- The position of the column of field `slot` on a page with `rc` records, walking over the columns
of the fields from `fi` on, the first of which is at `body`. -/
def paxColumnWalk (rc : ℕ) : ℕ → ℕ → ℕ → Res ℕ
  | 0, _, body => .ok body
  | n + 1, fi, body => do
    ensure (¬ body > r.data.length) .outOfBounds
    let slen ← columnSectorLen (r.data.drop body) rc (r.keySigils.getD fi SIGIL_INT)
    let body ← okOr (checkedAdd body slen) .outOfBounds
    paxColumnWalk rc n (fi + 1) body

def paxColumnSector (pageIdx slot : ℕ) : Res Bytes := do
  let poff ← okOr (r.paxEntry pageIdx 16 8) .outOfBounds
  ensure (¬ poff > r.data.length - 24) .outOfBounds
  let magic ← readLE r.data poff 4
  ensure (magic = MAGIC_PAGE) .invalidPageMagic
  let rc ← readLE r.data (poff + 16) 4
  let fieldCount ← readLE r.data (poff + 20) 2
  ensure (¬ slot ≥ fieldCount) .outOfBounds
  let body ← okOr (checkedAdd poff 24) .outOfBounds
  let body ← r.paxColumnWalk rc slot 0 body
  ensure (¬ body > r.data.length) .outOfBounds
  let slen ← columnSectorLen (r.data.drop body) rc (r.keySigils.getD slot SIGIL_INT)
  ensure (¬ body > r.data.length - slen) .outOfBounds
  range r.data body (body + slen)

def paxPageFieldVarParts (pageIdx slot : ℕ) : Res (Bytes × Bytes × Bytes) := do
  let sector ← r.paxColumnSector pageIdx slot
  let rc ← okOr (r.paxPageRecCount pageIdx) .outOfBounds
  colVarParts sector rc

def paxPageFieldParts (pageIdx slot : ℕ) : Res (Bytes × Bytes) := do
  let sector ← r.paxColumnSector pageIdx slot
  let rc ← okOr (r.paxPageRecCount pageIdx) .outOfBounds
  let bmLen ← nullBitmapLen rc
  ensure (¬ sector.length < bmLen) .outOfBounds
  let valsEnd := bmLen + rc * 8
  ensure (¬ sector.length < valsEnd) .outOfBounds
  let bm ← range sector 0 bmLen
  let vals ← range sector bmLen valsEnd
  .ok (bm, vals)

/-- The binary search of `pax_locate_record` between the `i32` bounds `lo` and `hi`.  Each round
halves the range, so that 32 rounds are enough for any two bounds. -/
def paxLocateLoop (recordIndex : ℕ) : ℕ → ℤ → ℤ → Opt (ℕ × ℕ)
  | 0, _, _ => none'
  | fuel + 1, lo, hi =>
    if lo ≤ hi then do
      demand (lo + hi < 2 ^ 31)
      let mid := ((lo + hi) / 2).toNat
      let start ← r.paxPageRecStart mid
      let count ← r.paxPageRecCount mid
      if recordIndex < start then paxLocateLoop recordIndex fuel lo (mid - 1)
      else do
        let stop ← usizeAdd start count
        if recordIndex ≥ stop then paxLocateLoop recordIndex fuel (mid + 1) hi
        else .ok (mid, recordIndex - start)
    else none'

/-- `n as i32`. -/
def asI32 (n : ℕ) : ℤ := (n : ℤ).bmod (2 ^ 32)

def paxLocateRecord (recordIndex : ℕ) : Opt (ℕ × ℕ) := do
  let count ← r.pageCount
  r.paxLocateLoop recordIndex 33 0 (asI32 (count - 1))

/-- The first `w` bytes of a cell of a fixed-width column, where it is populated. -/
def paxGetWord (w recordIndex slot : ℕ) : Opt ℕ := do
  let (pi, local_) ← r.paxLocateRecord recordIndex
  let sig ← r.keySigil slot
  ensure (¬ isVarSigil sig) ()
  let (bm, vals) ← (r.paxPageFieldParts pi slot).toOpt
  let set ← bitAt bm local_
  ensure (set = true) ()
  getLE vals (local_ * 8) w

def paxGetF64 (recordIndex slot : ℕ) : Opt F64 := f64Of <$> r.paxGetWord 8 recordIndex slot

def paxGetI64 (recordIndex slot : ℕ) : Opt Int64 := i64Of <$> r.paxGetWord 8 recordIndex slot

def paxGetBool (recordIndex slot : ℕ) : Opt Bool := (· != 0) <$> r.paxGetWord 1 recordIndex slot

def paxGetStr (recordIndex slot : ℕ) : Opt String := do
  let (pi, local_) ← r.paxLocateRecord recordIndex
  ensure (r.keySigils[slot]? = some SIGIL_STR) ()
  let (bm, offsets, values) ← (r.paxPageFieldVarParts pi slot).toOpt
  let set ← bitAt bm local_
  ensure (set = true) ()
  varStrAt offsets values local_

/-! ## The getters of a record -/

/-- The position of slot `s` of the row-layout object at `offset`. -/
def resolve (offset s : ℕ) : Opt ℕ :=
  match r.extSchema, r.cellPlan with
  | some ext, some plan =>
    resolveFieldOffset r.data offset s ext plan (hasFlag r.flags FLAG_DENSE_FRAMES)
  | _, _ => resolveSlot r.data offset s

/-- An inline string at `off` with a length prefix of `pre` bytes. -/
def inlineStr (off pre len : ℕ) : Opt String := do
  let start ← usizeAdd off pre
  let stop ← usizeAdd start len
  let bytes ← getRange r.data start stop
  fromUtf8 bytes

def rowGetI64 (offset s : ℕ) : Opt Int64 := do
  let off ← r.resolve offset s
  match r.extSchema with
  | some ext => (decodeIntCell r.data off (ext.cellWidth s)).toOpt
  | none => i64Of <$> getLE r.data off 8

def rowGetF64 (offset s : ℕ) : Opt F64 := do
  let off ← r.resolve offset s
  match r.extSchema with
  | some ext => (decodeF64Cell r.data off (ext.cellWidth s)).toOpt
  | none => f64Of <$> getLE r.data off 8

/-- A bool stored in a cell of its own. -/
def rowGetPlainBool (offset s : ℕ) : Opt Bool := do
  let off ← r.resolve offset s
  let b ← get r.data off
  .ok (b != 0)

def rowGetBool (offset s : ℕ) : Opt Bool :=
  match r.extSchema, r.cellPlan with
  | some ext, some plan =>
    if plan.isPacked s then readPackedBool r.data offset s ext plan else r.rowGetPlainBool offset s
  | _, _ => r.rowGetPlainBool offset s

def rowGetStr (offset s : ℕ) : Opt String := do
  let off ← r.resolve offset s
  match r.extSchema with
  | some ext =>
    if ext.isPromoted s then do
      let idx ← getLE r.data off 2
      .ofOption ext.valuePool[idx]?
    else do
      let len ← (readStrCellLen r.data off (ext.strLenPrefix s)).toOpt
      r.inlineStr off (ext.strLenPrefix s) len
  | none => do
    let len ← getLE r.data off 4
    r.inlineStr off 4 len

def getI64 (offset : ℕ) (key : String) : Opt Int64 := do
  let s ← r.slot key
  match r.layout with
  | .columnar => i64Of <$> r.colGetWord 8 s offset
  | .pax => r.paxGetI64 offset s
  | .row => r.rowGetI64 offset s

def getF64 (offset : ℕ) (key : String) : Opt F64 := do
  let s ← r.slot key
  match r.layout with
  | .columnar => f64Of <$> r.colGetWord 8 s offset
  | .pax => r.paxGetF64 offset s
  | .row => r.rowGetF64 offset s

def getBool (offset : ℕ) (key : String) : Opt Bool := do
  let s ← r.slot key
  match r.layout with
  | .columnar => (· != 0) <$> r.colGetWord 1 s offset
  | .pax => r.paxGetBool offset s
  | .row => r.rowGetBool offset s

def getStr (offset : ℕ) (key : String) : Opt String := do
  let s ← r.slot key
  match r.layout with
  | .columnar => r.colGetStr s offset
  | .pax => r.paxGetStr offset s
  | .row => r.rowGetStr offset s

/-! ## Reading record `i` -/

/-- `reader.record(i)?.get_i64(key)`. -/
def i64At (i : ℕ) (key : String) : Opt Int64 := do
  let off ← r.record i
  r.getI64 off key

def f64At (i : ℕ) (key : String) : Opt F64 := do
  let off ← r.record i
  r.getF64 off key

def boolAt (i : ℕ) (key : String) : Opt Bool := do
  let off ← r.record i
  r.getBool off key

def strAt (i : ℕ) (key : String) : Opt String := do
  let off ← r.record i
  r.getStr off key

end Reader

end Nyxis

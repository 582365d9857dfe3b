import Nyxis.Reader

/-!
# StreamReader — reading a row file that is still being written

`StreamReader.new` opens a file whose tail pointer is not set yet, `pollNextOffset` finds the next
complete object behind the ones found, and the getters read a field of the object at an offset.
-/

namespace Nyxis

open Lib Lib.Outcome

/-- The end of the object at `off`, if the object is there as a whole. -/
def completeNyxoEnd (d : Bytes) (off : ℕ) : Opt ℕ := do
  let header ← usizeAdd off 8
  ensure (¬ header > d.length) ()
  let magic ← getLE d off 4
  ensure (magic = MAGIC_OBJ) ()
  let lenAt ← usizeAdd off 4
  let objLen ← getLE d lenAt 4
  ensure (¬ objLen < 8) ()
  let stop ← (checkedAdd off objLen : Opt ℕ)
  ensure (stop ≤ d.length) ()
  .ok stop

structure StreamReader where
  data : Bytes
  flags : ℕ
  keys : List String
  keySigils : List UInt8
  extSchema : Option ExtendedSchema
  cellPlan : Option RowCellPlan
  dataStart : ℕ
  cursor : ℕ
  isSealed : Bool
  deriving Repr

namespace StreamReader

/-- The file ends with a footer whose tail pointer is plausible. -/
def footerSeals (d : Bytes) : Res Bool :=
  if d.length < 16 then .ok false
  else do
    let magicAt ← usizeSub d.length 4
    let magic ← readLE d magicAt 4
    if magic ≠ MAGIC_FOOTER then .ok false
    else do
      let ptrAt ← usizeSub d.length 12
      let tp ← readLE d ptrAt 8
      .ok (decide (tp > 0 ∧ tp < d.length ∧ d.length - tp ≥ 16))

/-- Keys, sigils, v1.3 schema with its plan, and where the data starts. -/
def openSchema (d : Bytes) (flags : ℕ) :
    Res (List String × List UInt8 × Option ExtendedSchema × Option RowCellPlan × ℕ) :=
  if hasFlag flags FLAG_SCHEMA_EMBEDDED then
    if hasFlag flags FLAG_V13_COMPACT_MASK then do
      let (schema, stop) ← parseExtendedSchema d 32 flags
      ensure (¬ stop > d.length) .outOfBounds
      .ok (schema.keys, schema.sigils, some schema, some (RowCellPlan.new schema flags), stop)
    else do
      let (keys, sigils, dataStart) ← parseSchema d 32
      .ok (keys, sigils, none, none, dataStart)
  else .ok ([], [], none, none, 32)

/-- `StreamReader::open`. -/
def new (file : Slice) : Res StreamReader := do
  let d := file.bytes
  ensure (¬ d.length < 32) .outOfBounds
  let magic ← readLE d 0 4
  ensure (magic = MAGIC_FILE) .badMagic
  let flags ← readLE d 6 2
  let tailPtr ← readLE d 16 8
  ensure (tailPtr = 0) (.parseError "not a stream file: TailPtr already set")
  let (keys, sigils, ext, plan, dataStart) ← openSchema d flags
  let isSealed ← footerSeals d
  .ok ⟨d, flags, keys, sigils, ext, plan, dataStart, dataStart, isSealed⟩

variable (s : StreamReader)

/-- The first object is there as a whole. -/
def hasFirstComplete : Opt Bool :=
  match completeNyxoEnd s.data s.dataStart with
  | .ok _ => .ok true
  | .err _ => .ok false
  | .panic => .panic

/-- `key_index` maps a key to its last position. -/
def slot (key : String) : Opt ℕ :=
  if key ∈ s.keys then .ok (s.keys.length - 1 - s.keys.reverse.idxOf key) else none'

def resolveFieldAt (objOffset slot : ℕ) : Opt ℕ :=
  match s.extSchema, s.cellPlan with
  | some ext, some plan => resolveFieldOffset s.data objOffset slot ext plan (hasFlag s.flags FLAG_DENSE_FRAMES)
  | _, _ => resolveSlot s.data objOffset slot

def getI64At (objOffset : ℕ) (key : String) : Opt Int64 := do
  let slot ← s.slot key
  let off ← s.resolveFieldAt objOffset slot
  match s.extSchema with
  | some ext => (decodeIntCell s.data off (ext.cellWidth slot)).toOpt
  | none => i64Of <$> getLE s.data off 8

def getF64At (objOffset : ℕ) (key : String) : Opt F64 := do
  let slot ← s.slot key
  let off ← s.resolveFieldAt objOffset slot
  match s.extSchema with
  | some ext => (decodeF64Cell s.data off (ext.cellWidth slot)).toOpt
  | none => f64Of <$> getLE s.data off 8

/-- A bool stored in a cell of its own. -/
def getPlainBoolAt (objOffset slot : ℕ) : Opt Bool := do
  let off ← s.resolveFieldAt objOffset slot
  let b ← get s.data off
  .ok (b != 0)

def getBoolAt (objOffset : ℕ) (key : String) : Opt Bool := do
  let slot ← s.slot key
  match s.extSchema, s.cellPlan with
  | some ext, some plan =>
    if plan.isPacked slot then readPackedBool s.data objOffset slot ext plan else s.getPlainBoolAt objOffset slot
  | _, _ => s.getPlainBoolAt objOffset slot

/-- The text of `len` bytes behind a length prefix of `pre` bytes. -/
def textAt (off pre len : ℕ) : Opt String := do
  let start ← usizeAdd off pre
  let stop ← usizeAdd start len
  let bytes ← getRange s.data start stop
  fromUtf8 bytes

def getStrAt (objOffset : ℕ) (key : String) : Opt String := do
  let slot ← s.slot key
  let off ← s.resolveFieldAt objOffset slot
  match s.extSchema with
  | some ext =>
    if ext.isPromoted slot then do
      let idx ← getLE s.data off 2
      .ofOption ext.valuePool[idx]?
    else do
      let len ← (readStrCellLen s.data off (ext.strLenPrefix slot)).toOpt
      s.textAt off (ext.strLenPrefix slot) len
  | none => do
    let len ← getLE s.data off 4
    s.textAt off 4 len

/-- The offset of the next complete object, and the reader behind it. -/
def pollNextOffset : Opt (ℕ × StreamReader) := do
  let stop ← completeNyxoEnd s.data s.cursor
  .ok (s.cursor, { s with cursor := stop })

end StreamReader

/-- The offsets that polling yields until it finds no complete object. -/
inductive Polls : StreamReader → List ℕ → Prop where
  | stop {s : StreamReader} (h : s.pollNextOffset = none') : Polls s []
  | next {s s' : StreamReader} {off : ℕ} {offs : List ℕ} (h : s.pollNextOffset = .ok (off, s')) (rest : Polls s' offs) :
      Polls s (off :: offs)

end Nyxis

import Nyxis.Decoder
import Nyxis.Layout

/-!
# RowObject — the columnar file of a finished writer

`columnarFromWriter` goes back over the buffer of a v1.2 writer, decodes the object of every record into
cells (`decodeRowObject`) by the sigils of the slots, and writes the rows as a columnar file.
-/

namespace Nyxis

open Lib Lib.Outcome

/-- The length-prefixed bytes of a cell. -/
def readCellBytes (d : Bytes) (off : ℕ) : Res Bytes := do
  let start ← usizeAdd off 4
  ensure (¬ start > d.length) .outOfBounds
  let len ← readLE d off 4
  let stop ← usizeAdd start len
  ensure (¬ stop > d.length) .outOfBounds
  range d start stop

/-- A cell by the sigil of its slot; words are read without a check of the bounds. -/
def readCellAt (d : Bytes) (off : ℕ) (sigil : UInt8) : Res Cell :=
  if sigil = SIGIL_INT then do
    let n ← readLE d off 8
    .ok (.i64 (i64Of n))
  else if sigil = SIGIL_FLOAT then do
    let n ← readLE d off 8
    .ok (.f64 (f64Of n))
  else if sigil = SIGIL_BOOL then do
    let b ← index d off
    .ok (.bool (b != 0))
  else if sigil = SIGIL_TIME then do
    let n ← readLE d off 8
    .ok (.time (i64Of n))
  else if sigil = SIGIL_NULL then .ok .null
  else if sigil = SIGIL_STR then do
    let bytes ← readCellBytes d off
    let s ← okOr (fromUtf8 bytes) (.parseError "invalid UTF-8 in string field")
    .ok (.str s)
  else if sigil = SIGIL_BINARY then do
    let bytes ← readCellBytes d off
    .ok (.binary bytes)
  else if sigil = SIGIL_KEYWORD then .err .unsupportedFieldType
  else .err .outOfBounds

/-- The bits of the first `width` slots, behind those read so far, and where the mask ends; it ends when
every slot has its bit.  The first argument bounds the number of bytes read. -/
def rowMask (d : Bytes) (width : ℕ) : ℕ → ℕ → List Bool → Res (List Bool × ℕ)
  | 0, p, bits => .ok (bits, p)
  | fuel + 1, p, bits =>
    if bits.length < width then do
      let b ← okOr (get d p) .outOfBounds
      let bits := bits ++ ((List.range 7).map fun bit => b.toNat.testBit bit).take (width - bits.length)
      if moreMask b then rowMask d width fuel (p + 1) bits else .ok (bits, p + 1)
    else .ok (bits, p)

/-- The cell of a present slot, of the given rank; ranks are counted in a `u16`. -/
def decodeRowCell (d : Bytes) (objOff tableStart : ℕ) (sigils : List UInt8) (e : ℕ × ℕ) : Res (ℕ × Cell) := do
  let off ← readOffset d objOff tableStart e.2
  let cell ← readCellAt d off (sigils.getD e.1 SIGIL_INT)
  demand (e.2 + 1 < 65536)
  .ok (e.1, cell)

/-- The cells of a row, absent where no cell was read. -/
def rowOfCells (width : ℕ) (cells : List (ℕ × Cell)) : List Cell :=
  (List.range width).map fun s => (cells.lookup s).getD .absent

def decodeRowObject (d : Bytes) (objOff width : ℕ) (sigils : List UInt8) : Res (List Cell) := do
  let p ← usizeAdd objOff 8
  ensure (¬ p > d.length) .outOfBounds
  let magic ← readLE d objOff 4
  ensure (magic = MAGIC_OBJ) .badMagic
  let (bits, tableStart) ← rowMask d width (width + 1) p []
  let slots := (List.range width).filter fun s => bits.getD s false
  let cells ← slots.zipIdx.mapM (decodeRowCell d objOff tableStart sigils)
  .ok (rowOfCells width cells)

/-- Columnar file from the buffer of a row-oriented writer. -/
def columnarFromWriter (w : NxsWriter) : Res Slice := do
  let rows ← w.recordOffsets.mapM fun relOff => do
    let cells ← decodeRowObject w.buf relOff w.keys.length w.slotSigils
    .ok (⟨cells⟩ : RecordRow)
  finishColumnar w.keys rows

end Nyxis

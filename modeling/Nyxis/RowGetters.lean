import Nyxis.SlotLookup
import Nyxis.StoredTable

/-!
# RowGetters — the typed getters of a v1.2 row file

A getter finds the place of a slot in the object of its record (`resolveSlot`) and reads the value that
stands there; `CellAt` says that it is a cell's.

* `RowCell.reads_cell`, `RowCell.reads_absent`: what the getters of a record return.
-/

namespace Nyxis

open Lib Lib.Outcome

/-- An inline string is read back. -/
theorem inlineStr_at {r : Reader} {p pre : ℕ} {s : String} (hat : At r.data (p + pre) (utf8 s))
    (hd : r.data.length < 2 ^ 63) : r.inlineStr p pre (utf8 s).length = .ok s := by
  have hle := hat.le
  rw [Reader.inlineStr, usizeAdd_of (by omega), ok_bind, usizeAdd_of (by omega), ok_bind, getRange_at hat,
    ok_bind, fromUtf8_utf8]

/-- What the getters see at position `p`. -/
def CellAt (r : Reader) (p : ℕ) : Cell → Prop
  | .i64 v | .time v => (i64Of <$> getLE r.data p 8) = .ok v
  | .f64 v => (f64Of <$> getLE r.data p 8) = .ok v
  | .bool v => (get r.data p >>= fun b => (.ok (b != 0) : Opt Bool)) = .ok v
  | .str s => (getLE r.data p 4 >>= fun len => r.inlineStr p 4 len) = .ok s
  | .null | .binary _ => True
  | .absent => False

/-- Record `i` of a v1.2 row file starts at `off`, and `key` has slot `slot`. -/
structure RowCell (r : Reader) (i off slot : ℕ) (key : String) : Prop where
  layout : r.layout = .row
  ext : r.extSchema = none
  record : r.record i = .ok off
  slot : r.slot key = .ok slot

namespace RowCell

variable {r : Reader} {i off slot : ℕ} {key : String} (h : RowCell r i off slot key)

include h

theorem i64At : r.i64At i key = (resolveSlot r.data off slot >>= fun p => i64Of <$> getLE r.data p 8) := by
  rw [Reader.i64At, h.record, ok_bind, Reader.getI64, h.slot, ok_bind, h.layout]
  dsimp only
  rw [Reader.rowGetI64, Reader.resolve, h.ext]

theorem f64At : r.f64At i key = (resolveSlot r.data off slot >>= fun p => f64Of <$> getLE r.data p 8) := by
  rw [Reader.f64At, h.record, ok_bind, Reader.getF64, h.slot, ok_bind, h.layout]
  dsimp only
  rw [Reader.rowGetF64, Reader.resolve, h.ext]

theorem boolAt :
    r.boolAt i key = (resolveSlot r.data off slot >>= fun p => get r.data p >>= fun b => .ok (b != 0)) := by
  rw [Reader.boolAt, h.record, ok_bind, Reader.getBool, h.slot, ok_bind, h.layout]
  dsimp only
  rw [Reader.rowGetBool, h.ext]
  dsimp only
  rw [Reader.rowGetPlainBool, Reader.resolve, h.ext]

theorem strAt : r.strAt i key =
    (resolveSlot r.data off slot >>= fun p => getLE r.data p 4 >>= fun len => r.inlineStr p 4 len) := by
  rw [Reader.strAt, h.record, ok_bind, Reader.getStr, h.slot, ok_bind, h.layout]
  dsimp only
  rw [Reader.rowGetStr, Reader.resolve, h.ext]

/-- A slot that is not found reads as absent. -/
theorem reads_absent (hres : resolveSlot r.data off slot = none') : r.Reads i key .absent := by
  refine ⟨?_, ?_, ?_, ?_⟩
  · rw [h.i64At, hres, err_bind]
  · rw [h.f64At, hres, err_bind]
  · rw [h.boolAt, hres, err_bind]
  · rw [h.strAt, hres, err_bind]

/-- A cell that stands at the place of its slot is read back. -/
theorem reads_cell {p : ℕ} {c : Cell} (hres : resolveSlot r.data off slot = .ok p) (hc : CellAt r p c) :
    r.Reads i key c := by
  cases c with
  | i64 v | time v =>
    show r.i64At i key = .ok v
    rw [h.i64At, hres, ok_bind]
    exact hc
  | f64 v =>
    show r.f64At i key = .ok v
    rw [h.f64At, hres, ok_bind]
    exact hc
  | bool v =>
    show r.boolAt i key = .ok v
    rw [h.boolAt, hres, ok_bind]
    exact hc
  | str s =>
    show r.strAt i key = .ok s
    rw [h.strAt, hres, ok_bind]
    exact hc
  | null | binary b => trivial
  | absent => exact hc.elim

end RowCell

end Nyxis

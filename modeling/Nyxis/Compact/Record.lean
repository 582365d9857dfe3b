import Nyxis.Compact.Plan

/-!
# Compact.Record — encoding one compact record

`encodeCompactRecord` writes a record densely when every slot is present and dense frames are on
(`encodeDenseBody`), and otherwise with a bitmask and an offset table (`encodeSparseBody`).
-/

namespace Nyxis

open Lib Lib.Outcome

inductive CompactCell where
  | i64 (v : Int64)
  | f64 (v : F64)
  | bool (v : Bool)
  | str (s : String)
  | time (v : Int64)
  | null
  | keyword (idx : ℕ)
  deriving DecidableEq, Repr

/-- `map.get(&(fi as u16))` in the map of the cells, where the last cell of a slot wins. -/
def cellAt (cells : List (ℕ × CompactCell)) (fi : ℕ) : Option CompactCell :=
  (cells.reverse.find? fun c => c.1 == fi % 65536).map Prod.snd

def encodeIntCell (v : Int64) (width : ℕ) : Res Bytes :=
  if width = 1 then do
    ensure (0 ≤ v ∧ v ≤ 255) .valueOutOfRange
    .ok ((i64Bytes v).take 1)
  else if width = 2 then do
    ensure (-32768 ≤ v ∧ v ≤ 32767) .valueOutOfRange
    .ok ((i64Bytes v).take 2)
  else if width = 4 then do
    ensure (-2147483648 ≤ v ∧ v ≤ 2147483647) .valueOutOfRange
    .ok ((i64Bytes v).take 4)
  else if width = 8 then .ok (i64Bytes v)
  else .err (.parseError s!"invalid int width: {width}")

def encodeF64Cell (v : F64) (width : ℕ) : Res Bytes :=
  if width = 4 then .ok (leBytes 4 v.toF32)
  else if width = 8 then .ok (f64Bytes v)
  else .err (.parseError s!"invalid float width: {width}")

/-- The shared word of the packed bools: bit `bi` is that of the slot `bool_slots[bi]`.  Shifting by
64 or more and taking more than eight bytes both panic. -/
def emitBoolWord (body : Bytes) (value : ℕ → Bool) (plan : RowCellPlan) : Res Bytes := do
  let bw := plan.boolWordBytes
  let word := bitBytes 8 fun bi => (plan.boolSlots[bi]?).any value
  let bytes ← range word 0 bw
  .ok (padTo bw body ++ bytes)

/-- An inline string with its length prefix, padded to eight bytes. -/
def appendStr (body : Bytes) (pre : ℕ) (s : String) : Res Bytes :=
  let bytes := utf8 s
  let pad := zeros (padLen 8 (pre + bytes.length))
  if pre = 2 then do
    ensure (¬ bytes.length > 65535) .valueOutOfRange
    .ok (body ++ leBytes 2 bytes.length ++ bytes ++ pad)
  else .ok (body ++ leBytes 4 bytes.length ++ bytes ++ pad)

def appendCell (body : Bytes) (fi : ℕ) (cell : CompactCell) (sch : ExtendedSchema)
    (plan : RowCellPlan) : Res Bytes :=
  let w := planWidth sch plan fi
  match cell with
  | .i64 v => do
    let bytes ← encodeIntCell v w
    .ok (padTo w body ++ bytes)
  | .f64 v => do
    let bytes ← encodeF64Cell v w
    .ok (padTo w body ++ bytes)
  | .bool v => .ok (if plan.packedBools then body else padTo 8 body ++ (if v then 1 else 0) :: zeros 7)
  | .time v => .ok (padTo 8 body ++ i64Bytes v)
  | .str s =>
    if sch.isPromoted fi then do
      ensure (s ∈ sch.valuePool) .dictMismatch
      .ok (padTo 2 body ++ leBytes 2 (sch.valuePool.idxOf s))
    else appendStr body (sch.strLenPrefix fi) s
  | .keyword idx => .ok (padTo 2 body ++ leBytes 2 idx)
  | .null => .ok body

/-! ## Dense records -/

/-- One slot of the wire order of a dense record. -/
def denseStep (cells : List (ℕ × CompactCell)) (sch : ExtendedSchema) (plan : RowCellPlan)
    (body : Bytes) (fi : ℕ) : Res Bytes :=
  if plan.isPacked fi then
    if some fi = plan.firstBool then
      emitBoolWord body (fun bs => cellAt cells bs == some (.bool true)) plan
    else .ok body
  else do
    let cell ← okOr (.ofOption (cellAt cells fi)) .outOfBounds
    appendCell body fi cell sch plan

def encodeDenseBody (cells : List (ℕ × CompactCell)) (sch : ExtendedSchema) (plan : RowCellPlan) :
    Res Bytes :=
  (denseWireOrder sch plan).foldlM (denseStep cells sch plan) []

/-! ## Sparse records -/

/-- Where the cell of slot `fi` starts in a sparse body of the given length. -/
def sparseCellBodyStart (bodyLen fi : ℕ) (sch : ExtendedSchema) (plan : RowCellPlan) : ℕ :=
  let w := planWidth sch plan fi
  let sig := sch.sigil fi
  if (sig = SIGIL_INT ∨ sig = SIGIL_FLOAT ∨ sig = SIGIL_BOOL) ∧
      (plan.packedBools = false ∨ sig ≠ SIGIL_BOOL) then alignTo bodyLen w
  else if sig = SIGIL_TIME then alignTo bodyLen 8
  else if (sig = SIGIL_KEYWORD ∨ isVarSigil sig = true) ∧ sch.isPromoted fi = true then
    alignTo bodyLen 2
  else if isVarSigil sig then bodyLen
  else alignTo bodyLen 8

/-- A sparse body so far: its bytes, the start of each slot, and whether the bool word is out. -/
structure SparseBody where
  body : Bytes
  starts : List (ℕ × ℕ)
  boolWordEmitted : Bool
  deriving DecidableEq, Repr

/-- `starts.insert(fi, start)`: the latest entry of a slot stands first. -/
def SparseBody.insert (st : SparseBody) (fi start : ℕ) : SparseBody :=
  { st with starts := (fi, start) :: st.starts }

/-- One slot of a sparse record. -/
def sparseStep (cells : List (ℕ × CompactCell)) (present : List Bool) (sch : ExtendedSchema)
    (plan : RowCellPlan) (st : SparseBody) (fi : ℕ) : Res SparseBody :=
  if present.getD fi false = false then .ok st
  else if plan.isPacked fi then
    if st.boolWordEmitted then .ok st
    else do
      -- the start is taken before the word is aligned
      let base := st.body.length
      let st := plan.boolSlots.zipIdx.foldl (fun st b =>
        if present.getD b.1 false then st.insert b.1 (base + b.2 / 8) else st) (st.insert fi base)
      let body ← emitBoolWord st.body
        (fun bs => present.getD bs false && cellAt cells bs == some (.bool true)) plan
      .ok { st with body := body, boolWordEmitted := true }
  else do
    let cell ← expect (ofOption (cellAt cells fi))
    let start := sparseCellBodyStart st.body.length fi sch plan
    let body ← appendCell (st.body ++ zeros (start - st.body.length)) fi cell sch plan
    .ok { st.insert fi start with body := body }

def encodeSparseBody (cells : List (ℕ × CompactCell)) (present : List Bool) (sch : ExtendedSchema)
    (plan : RowCellPlan) : Res SparseBody :=
  (List.range sch.keys.length).foldlM (sparseStep cells present sch plan) ⟨[], [], false⟩

/-- The bitmask of the slots from `i` on: seven to a byte, the eighth bit says that more follow. -/
def bitmaskBytes (present : ℕ → Bool) (n : ℕ) : ℕ → ℕ → Bytes
  | 0, _ => []
  | fuel + 1, i =>
    byteOfBits (fun bit =>
        if bit = 7 then decide (i + 7 < n) else decide (i + bit < n) && present (i + bit)) ::
      if i + 7 < n then bitmaskBytes present n fuel (i + 7) else []

def buildBitmaskBytes (present : List Bool) : Bytes :=
  bitmaskBytes (fun i => present.getD i false) present.length (present.length + 1) 0

/-- The start of a slot as an offset from the start of the object, cast to `u16`. -/
def sparseRelOffset (starts : List (ℕ × ℕ)) (dataStart fi : ℕ) : Res ℕ := do
  let start ← okOr (.ofOption ((starts.find? fun e => e.1 == fi).map Prod.snd))
    (.parseError s!"missing sparse body offset for field {fi}")
  .ok ((dataStart + start) % 65536)

/-- Encode one NYXO record with v1.3 compact options. -/
def encodeCompactRecord (cells : List (ℕ × CompactCell)) (sch : ExtendedSchema)
    (opts : CompactOptions) : Res Bytes := do
  let n := sch.keys.length
  let plan := RowCellPlan.new sch opts.preambleFlags
  let present := (List.range n).map fun i => cells.any fun c => c.1 == i
  if opts.denseFrames && present.all id then do
    let body ← encodeDenseBody cells sch plan
    .ok (leBytes 4 MAGIC_OBJ ++ leBytes 4 (9 + body.length) ++ [1] ++ body) -- `RECORD_HDR_DENSE`
  else do
    let sparse ← encodeSparseBody cells present sch plan
    let mask := (if opts.denseFrames then [0] else []) ++ buildBitmaskBytes present
    let presentSlots := (List.range n).filter fun i => present.getD i false
    let headerLen := 8 + mask.length
    let otSlots := sparseOffsetTableSlots presentSlots plan
    let dataStart := alignTo (headerLen + otSlots.length * 2) 8
    let relOffs ← otSlots.mapM (sparseRelOffset sparse.starts dataStart)
    let table := relOffs.flatMap (leBytes 2)
    let pad := zeros (dataStart - (headerLen + table.length))
    let total := headerLen + table.length + pad.length + sparse.body.length
    .ok (leBytes 4 MAGIC_OBJ ++ leBytes 4 total ++ mask ++ table ++ pad ++ sparse.body)

end Nyxis

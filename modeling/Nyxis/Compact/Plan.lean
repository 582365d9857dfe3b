import Nyxis.Compact.Schema
import Nyxis.Compact.Tail

/-!
# Compact.Plan — where the cells of a compact record are

`RowCellPlan` is what a reader precomputes from the extended schema.  Cells stand in
`denseWireOrder`; `advanceDensePastCell` and `precomputeDenseFixedOffsets` walk that order,
`denseFieldOffset` finds a slot of a dense record and `resolveSlotV13Sparse` one of a sparse record.
-/

namespace Nyxis

open Lib Lib.Outcome

structure RowCellPlan where
  boolSlots : List ℕ
  firstBool : Option ℕ
  packedBools : Bool
  narrow : Bool
  denseAllowed : Bool
  denseWireReorder : Bool
  /-- Body-relative offsets of the fixed-width slots. -/
  denseFixedBodyOffsets : Option (List (Option ℕ))
  /-- Body-relative start of the variable-length tail. -/
  denseVarBodyStart : Option ℕ
  deriving DecidableEq, Repr

namespace RowCellPlan

/-- The slot's bit lives in the shared word. -/
def isPacked (plan : RowCellPlan) (fi : ℕ) : Bool := plan.packedBools && plan.boolSlots.contains fi

/-- Bytes of the shared packed-bool word. -/
def boolWordBytes (plan : RowCellPlan) : ℕ :=
  if !plan.packedBools || plan.boolSlots.isEmpty then 0
  else max ((plan.boolSlots.length + 7) / 8) 1

end RowCellPlan

def denseCellAlignWidth (fi : ℕ) (sch : ExtendedSchema) (plan : RowCellPlan) : ℕ :=
  if plan.isPacked fi then plan.boolWordBytes
  else
    let sig := sch.sigil fi
    if isVarSigil sig then 0
    else if sch.isPromoted fi || sig == SIGIL_KEYWORD then 2
    else if sig = SIGIL_INT ∨ sig = SIGIL_FLOAT then if plan.narrow then sch.cellWidth fi else 8
    else if sig = SIGIL_TIME then 8
    else if sig = SIGIL_BOOL ∧ plan.packedBools = false then 8
    else if sig = SIGIL_NULL then 1
    else 8

/-- The fixed cells of a dense frame: by descending width, then by slot. -/
def wireBefore (a b : ℕ × ℕ) : Prop := b.1 < a.1 ∨ (a.1 = b.1 ∧ a.2 ≤ b.2)

instance : DecidableRel wireBefore := fun _ _ => inferInstanceAs (Decidable (_ ∨ _))

/-- The descending-width order: fixed cells (the bool word once), then strings. -/
def denseReordered (sch : ExtendedSchema) (plan : RowCellPlan) : List ℕ :=
  let slots := List.range sch.keys.length
  let vars := slots.filter fun fi => isVarSigil (sch.sigil fi)
  let fixed := (slots.filter fun fi =>
      !isVarSigil (sch.sigil fi) && (!plan.isPacked fi || plan.firstBool == some fi)).map fun fi =>
    (denseCellAlignWidth fi sch plan, fi)
  (fixed.insertionSort wireBefore).map Prod.snd ++ vars

/-- Dense-frame cell order on the wire. -/
def denseWireOrder (sch : ExtendedSchema) (plan : RowCellPlan) : List ℕ :=
  if plan.denseWireReorder = false then List.range sch.keys.length else denseReordered sch plan

/-- The width of an unpacked fixed cell. -/
def planWidth (sch : ExtendedSchema) (plan : RowCellPlan) (fi : ℕ) : ℕ :=
  if plan.narrow then sch.cellWidth fi else 8

def advancePastBoolWord (pos : ℕ) (plan : RowCellPlan) : ℕ :=
  alignTo pos plan.boolWordBytes + plan.boolWordBytes

def advanceDensePastCellFixed (pos fi : ℕ) (sch : ExtendedSchema) (plan : RowCellPlan) : ℕ :=
  let sig := sch.sigil fi
  let w := planWidth sch plan fi
  if plan.isPacked fi then advancePastBoolWord pos plan
  else if (sig = SIGIL_INT ∨ sig = SIGIL_FLOAT ∨ sig = SIGIL_BOOL) ∧
      (plan.packedBools = false ∨ sig ≠ SIGIL_BOOL) then alignTo pos w + w
  else if sig = SIGIL_KEYWORD then alignTo pos 2 + 2
  else alignTo pos 8 + 8

/-- The loop of `precompute_dense_fixed_offsets` over the rest of the wire order. -/
def precomputeLoop (sch : ExtendedSchema) (plan : RowCellPlan) :
    List ℕ → ℕ → List (Option ℕ) → List (Option ℕ) × Option ℕ
  | [], _, out => (out, none)
  | fi :: rest, pos, out =>
    if plan.isPacked fi then
      if some fi = plan.firstBool then
        let bw := plan.boolWordBytes
        let base := alignTo pos bw
        let out := plan.boolSlots.zipIdx.foldl (fun out b => out.set b.1 (some (base + b.2 / 8))) out
        precomputeLoop sch plan rest (base + bw) out
      else precomputeLoop sch plan rest pos out
    else
      let sig := sch.sigil fi
      if isVarSigil sig then (out, some pos)
      else
        let w := planWidth sch plan fi
        let off := if sch.isPromoted fi || sig == SIGIL_KEYWORD then alignTo pos 2 else alignTo pos w
        precomputeLoop sch plan rest (advanceDensePastCellFixed pos fi sch plan) (out.set fi (some off))

def precomputeDenseFixedOffsets (sch : ExtendedSchema) (plan : RowCellPlan) :
    List (Option ℕ) × Option ℕ :=
  precomputeLoop sch plan (denseWireOrder sch plan) 0 (List.replicate sch.keys.length none)

/-- The plan before its offsets are precomputed. -/
def RowCellPlan.bare (sch : ExtendedSchema) (flags : ℕ) : RowCellPlan where
  boolSlots := sch.boolSlots
  firstBool := sch.boolSlots.head?
  packedBools := hasFlag flags FLAG_PACKED_BOOLS
  narrow := hasFlag flags FLAG_NARROW_CELLS
  denseAllowed := hasFlag flags FLAG_DENSE_FRAMES
  denseWireReorder := hasFlag flags FLAG_DENSE_WIRE_REORDER
  denseFixedBodyOffsets := none
  denseVarBodyStart := none

/-- `RowCellPlan::new`. -/
def RowCellPlan.new (sch : ExtendedSchema) (flags : ℕ) : RowCellPlan :=
  let plan := RowCellPlan.bare sch flags
  if plan.denseWireReorder && plan.denseAllowed then
    let (offsets, varStart) := precomputeDenseFixedOffsets sch plan
    { plan with denseFixedBodyOffsets := some offsets, denseVarBodyStart := varStart }
  else plan

/-! ## Dense records -/

/-- Payload length of an inline string cell. -/
def readStrCellLen (d : Bytes) (off prefixLen : ℕ) : Res ℕ :=
  if prefixLen = 2 ∨ prefixLen = 4 then do
    let stop ← usizeAdd off prefixLen
    ensure (stop ≤ d.length) .outOfBounds
    readLE d off prefixLen
  else .err .outOfBounds

/-- Past a length-prefixed string cell and its padding. -/
def advancePastStrCell (pos payloadLen prefixLen : ℕ) : ℕ :=
  pos + (prefixLen + payloadLen) + padLen 8 (prefixLen + payloadLen)

def advanceDensePastCell (d : Bytes) (bodyBase pos fi : ℕ) (sch : ExtendedSchema)
    (plan : RowCellPlan) : Res ℕ :=
  let sig := sch.sigil fi
  let w := planWidth sch plan fi
  if plan.isPacked fi then .ok (advancePastBoolWord pos plan)
  else if (sig = SIGIL_INT ∨ sig = SIGIL_FLOAT ∨ sig = SIGIL_BOOL) ∧
      (plan.packedBools = false ∨ sig ≠ SIGIL_BOOL) then .ok (alignTo pos w + w)
  else if isVarSigil sig then
    if sch.isPromoted fi then .ok (alignTo pos 2 + 2)
    else do
      let pre := sch.strLenPrefix fi
      let abs ← usizeAdd bodyBase pos
      let stop ← usizeAdd abs pre
      ensure (stop ≤ d.length) .outOfBounds
      let len ← readStrCellLen d abs pre
      .ok (advancePastStrCell pos len pre)
  else if sig = SIGIL_KEYWORD then .ok (alignTo pos 2 + 2)
  else .ok (alignTo pos 8 + 8)

/-- The walk over the variable-length tail of a reordered dense record. -/
def denseVarWalk (d : Bytes) (bodyBase slot : ℕ) (sch : ExtendedSchema) (plan : RowCellPlan) :
    List ℕ → ℕ → Res (Option ℕ)
  | [], _ => .ok none
  | fi :: rest, pos =>
    if isVarSigil (sch.sigil fi) = false then denseVarWalk d bodyBase slot sch plan rest pos
    else if fi = slot then do
      let off ← usizeAdd bodyBase pos
      .ok (some off)
    else do
      let pos ← advanceDensePastCell d bodyBase pos fi sch plan
      denseVarWalk d bodyBase slot sch plan rest pos

/-- The walk over all cells of a dense record. -/
def denseWalk (d : Bytes) (bodyBase slot : ℕ) (sch : ExtendedSchema) (plan : RowCellPlan) :
    List ℕ → ℕ → Res (Option ℕ)
  | [], _ => .ok none
  | fi :: rest, pos =>
    if plan.isPacked fi then
      if some fi = plan.firstBool then
        if plan.boolSlots.contains slot then do
          let byte := plan.boolSlots.idxOf slot / 8
          let off ← usizeAdd bodyBase (alignTo pos plan.boolWordBytes + byte)
          .ok (some off)
        else denseWalk d bodyBase slot sch plan rest (advancePastBoolWord pos plan)
      else denseWalk d bodyBase slot sch plan rest pos
    else if fi = slot then do
      let sig := sch.sigil fi
      let rel := if sch.isPromoted fi || sig == SIGIL_KEYWORD then alignTo pos 2
        else if isVarSigil sig then pos
        else alignTo pos (planWidth sch plan fi)
      let off ← usizeAdd bodyBase rel
      .ok (some off)
    else do
      let pos ← advanceDensePastCell d bodyBase pos fi sch plan
      denseWalk d bodyBase slot sch plan rest pos

/-- Absolute offset of `slot` in a dense record. -/
def denseFieldOffset (d : Bytes) (objOffset slot : ℕ) (sch : ExtendedSchema) (plan : RowCellPlan) :
    Res (Option ℕ) := do
  let bodyBase ← usizeAdd objOffset 9
  match plan.denseFixedBodyOffsets.bind fun fixed => (fixed[slot]?).join with
  | some bodyRel => do
    let off ← usizeAdd bodyBase bodyRel
    .ok (some off)
  | none =>
    match plan.denseFixedBodyOffsets, plan.denseVarBodyStart with
    | some _, some pos => denseVarWalk d bodyBase slot sch plan (denseWireOrder sch plan) pos
    | _, _ => denseWalk d bodyBase slot sch plan (denseWireOrder sch plan) 0

/-! ## Presence bitmasks -/

/-- What a bitmask walker has seen: the slots passed, the present ones before the slot it looks for,
and whether it has met that slot. -/
structure MaskState where
  cur : ℕ
  tableIdx : ℕ
  found : Bool
  deriving DecidableEq, Repr

/-- One bit of a bitmask byte. -/
def maskBit (b : UInt8) (slot : ℕ) (st : MaskState) (bit : ℕ) : Opt MaskState :=
  if st.cur = slot then
    if b.toNat.testBit bit then .ok { st with cur := st.cur + 1, found := true } else none'
  else if st.cur < slot ∧ b.toNat.testBit bit then
    .ok { st with cur := st.cur + 1, tableIdx := st.tableIdx + 1 }
  else .ok { st with cur := st.cur + 1 }

/-- The continuation bit of a bitmask byte. -/
def moreMask (b : UInt8) : Bool := b.toNat.testBit 7

theorem moreMask_byteOfBits (more : Bool) (q : ℕ → Bool) :
    moreMask (byteOfBits fun b => if b = 7 then more else q b) = more := by
  rw [moreMask, testBit_byteOfBits _ (by omega), if_pos rfl]

/-- The walk over bitmask bytes up to the one that holds `slot`; the first argument bounds the
number of bytes read.  Result: the position behind that byte, the rank of the slot, the byte. -/
def maskLoop (d : Bytes) (slot : ℕ) : ℕ → ℕ → MaskState → Opt (ℕ × ℕ × UInt8)
  | 0, _, _ => none'
  | fuel + 1, p, st => do
    let b ← get d p
    let p ← checkedAdd p 1
    let st ← (List.range 7).foldlM (maskBit b slot) st
    if st.found && !moreMask b then .ok (p, st.tableIdx, b)
    else if st.cur > slot ∧ st.found then .ok (p, st.tableIdx, b)
    else if !moreMask b then none'
    else maskLoop d slot fuel p st

/-- Skip remaining continuation bytes. -/
def skipMask (d : Bytes) : ℕ → ℕ → UInt8 → Opt ℕ
  | 0, _, _ => none'
  | fuel + 1, p, b =>
    if moreMask b then do
      let b ← get d p
      let p ← checkedAdd p 1
      skipMask d fuel p b
    else .ok p

/-- The `u16` at entry `idx` of an offset table, as a position in the object. -/
def tableEntry (d : Bytes) (objOffset tableStart idx : ℕ) : Opt ℕ := do
  let tableOff ← checkedMul idx 2
  let entry ← checkedAdd tableStart tableOff
  let stop ← checkedAdd entry 2
  let bytes ← getRange d entry stop
  checkedAdd objOffset (leNat bytes)

/-- `query::resolve_slot`, and its copy `compact::resolve_slot_v12`: the position of the value at
`slot` of the v1.2 object at `objOffset`.  The copy's unchecked additions are the same on positions
inside the buffer. -/
def resolveSlot (d : Bytes) (objOffset slot : ℕ) : Opt ℕ := do
  let p ← checkedAdd objOffset 8
  let (p, idx, b) ← maskLoop d slot (d.length + 1) p ⟨0, 0, false⟩
  let p ← skipMask d (d.length + 1) p b
  tableEntry d objOffset p idx

/-! ## Sparse records -/

/-- The bit of `target` in the bitmask at `p`, walking byte by byte from slot `cur` on. -/
def sparseBit (d : Bytes) (target : ℕ) : ℕ → ℕ → ℕ → Opt Bool
  | 0, _, _ => none'
  | fuel + 1, p, cur => do
    let b ← get d p
    if target < cur + 7 then .ok (b.toNat.testBit (target - cur))
    else if moreMask b then sparseBit d target fuel (p + 1) (cur + 7)
    else none'

/-- `is_bit_set_sparse`. -/
def isBitSetSparse (d : Bytes) (objOffset slot : ℕ) : Opt Bool := do
  let p ← usizeAdd objOffset 9
  match sparseBit d slot (d.length + 1) p 0 with
  | .ok b => .ok b
  | .err _ => .ok false
  | .panic => .panic

/-- The end of the bitmask at `p` of a record with `fieldCount` slots, from slot `cur` on. -/
def sparseMaskEnd (d : Bytes) (fieldCount : ℕ) : ℕ → ℕ → ℕ → Opt ℕ
  | 0, _, _ => none'
  | fuel + 1, p, cur => do
    let b ← get d p
    if fieldCount ≤ cur + 7 then .ok (p + 1)
    else if moreMask b then sparseMaskEnd d fieldCount fuel (p + 1) (cur + 7)
    else .ok (p + 1)

def sparseBitmaskEnd (d : Bytes) (objOffset fieldCount : ℕ) : Opt ℕ := do
  let p ← usizeAdd objOffset 9
  sparseMaskEnd d fieldCount (d.length + 1) p 0

def sparsePresentSlots (d : Bytes) (objOffset fieldCount : ℕ) : Opt (List ℕ) :=
  (List.range fieldCount).filterMapM fun fi => do
    let set ← isBitSetSparse d objOffset fi
    .ok (if set then some fi else none)

/-- The slots that have an offset-table entry: every present one, the packed bools together one. -/
def sparseOffsetTableSlots (presentSlots : List ℕ) (plan : RowCellPlan) : List ℕ :=
  if plan.packedBools = false then presentSlots
  else
    let first := presentSlots.find? fun fi => plan.boolSlots.contains fi
    presentSlots.filter fun fi => !plan.boolSlots.contains fi || first == some fi

/-- The `u16` at entry `idx` of a sparse record's offset table. -/
def sparseTableEntry (d : Bytes) (objOffset tableBase idx : ℕ) : Opt ℕ := do
  let entry ← usizeAdd tableBase (idx * 2)
  let stop ← usizeAdd entry 2
  let bytes ← getRange d entry stop
  usizeAdd objOffset (leNat bytes)

/-- `v.iter().position(|&x| x == fi)`. -/
def position (slots : List ℕ) (fi : ℕ) : Opt ℕ :=
  if fi ∈ slots then .ok (slots.idxOf fi) else none'

def resolveSlotV13Sparse (d : Bytes) (objOffset slot : ℕ) (sch : ExtendedSchema)
    (plan : RowCellPlan) : Opt ℕ := do
  let set ← isBitSetSparse d objOffset slot
  ensure (set = true) ()
  let presentSlots ← sparsePresentSlots d objOffset sch.keys.length
  let otSlots := sparseOffsetTableSlots presentSlots plan
  let tableBase ← sparseBitmaskEnd d objOffset sch.keys.length
  if plan.isPacked slot then do
    let boolTableFi ← .ofOption (otSlots.find? fun fi => plan.boolSlots.contains fi)
    let tableIdx ← position otSlots boolTableFi
    let base ← sparseTableEntry d objOffset tableBase tableIdx
    let bitInWord ← position plan.boolSlots slot
    usizeAdd base (bitInWord / 8)
  else do
    let tableIdx ← position otSlots slot
    sparseTableEntry d objOffset tableBase tableIdx

/-- The position of `slot` in the record at `objOffset`, whatever its framing. -/
def resolveFieldOffset (d : Bytes) (objOffset slot : ℕ) (sch : ExtendedSchema) (plan : RowCellPlan)
    (denseFrames : Bool) : Opt ℕ :=
  if denseFrames then do
    let hdrOff ← checkedAdd objOffset 8
    let hdr ← get d hdrOff
    if hasFlag hdr.toNat 1 then do -- `RECORD_HDR_DENSE`
      let off ← (denseFieldOffset d objOffset slot sch plan).toOpt
      .ofOption off
    else resolveSlotV13Sparse d objOffset slot sch plan
  else resolveSlot d objOffset slot

/-- One packed bool of the record at `objOffset`. -/
def readPackedBool (d : Bytes) (objOffset slot : ℕ) (sch : ExtendedSchema) (plan : RowCellPlan) :
    Opt Bool := do
  let off ← resolveFieldOffset d objOffset slot sch plan true
  let bitPos ← position plan.boolSlots slot
  let byte ← get d off
  .ok (byte.toNat.testBit (bitPos % 8))

/-! ## Cells -/

/-- The `i64` of an unsigned word of `w` bytes with the sign bit extended. -/
def signExtend (w n : ℕ) : Int64 := if n < 2 ^ (8 * w - 1) then .ofNat n else .ofInt (n - 2 ^ (8 * w))

def decodeIntCell (d : Bytes) (offset width : ℕ) : Res Int64 :=
  if width = 1 then do
    let b ← okOr (get d offset) .outOfBounds
    .ok (.ofNat b.toNat)
  else if width = 2 ∨ width = 4 ∨ width = 8 then do
    let n ← cellBytes width d offset
    .ok (signExtend width n)
  else .err .outOfBounds

def decodeF64Cell (d : Bytes) (offset width : ℕ) : Res F64 :=
  if width = 4 then do
    let n ← cellBytes 4 d offset
    .ok (.ofF32 n)
  else if width = 8 then do
    let n ← cellBytes 8 d offset
    .ok (f64Of n)
  else .err .outOfBounds

end Nyxis

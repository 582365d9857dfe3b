import Mathlib.Data.List.Sort
import Nyxis.PageFraming
import Nyxis.Decoder

/-!
# Stats — where the bytes of a file go

`analyze` splits the size of a file into segments, and the data sector into the bytes of each field and the framing
around them.  The bytes of a field are counted where its values are read: record by record in a row file (`analyzeRowFields`),
column by column (`analyzeColumnarFields`), page by page (`analyzePaxFields`).

* `FieldAccum` adds up, in one monoid; `FieldAccum.bytes` is a homomorphism.
* `slots_loop`: a pass over the slots adds its part to each of them.
* `FileStats.Accounts`: the numbers of a report cover the file.
-/

namespace Nyxis

open Lib Lib.Outcome

/-! ## Reports -/

structure SegmentStats where
  preamble : ℕ
  schema : ℕ
  dataSector : ℕ
  tailIndex : ℕ
  footer : ℕ
  /-- Row: headers, bitmasks and offset tables.  Columnar and PAX: page headers and alignment gaps. -/
  framing : ℕ
  deriving DecidableEq, Repr

structure FieldStats where
  name : String
  sigil : String
  payload : ℕ
  padding : ℕ
  nullBitmap : ℕ
  offsets : ℕ
  total : ℕ
  deriving DecidableEq, Repr

structure FileStats where
  path : Option String
  fileSize : ℕ
  layout : String
  recordCount : ℕ
  schemaHash : String
  segments : SegmentStats
  fields : List FieldStats
  deriving DecidableEq, Repr

/-! ## Accumulators -/

@[ext] structure FieldAccum where
  payload : ℕ
  padding : ℕ
  nullBitmap : ℕ
  offsets : ℕ
  deriving DecidableEq, Repr

namespace FieldAccum

/-- `FieldAccum::total`, in 64-bit sums. -/
def total (a : FieldAccum) : Res ℕ := do
  let n ← usizeAdd a.payload a.padding
  let n ← usizeAdd n a.nullBitmap
  usizeAdd n a.offsets

def intoStats (a : FieldAccum) (name : String) (sigil : UInt8) : Res FieldStats := do
  let total ← a.total
  .ok ⟨name, String.singleton (Char.ofNat sigil.toNat), a.payload, a.padding, a.nullBitmap, a.offsets, total⟩

instance : Zero FieldAccum := ⟨⟨0, 0, 0, 0⟩⟩

instance : Add FieldAccum :=
  ⟨fun a b => ⟨a.payload + b.payload, a.padding + b.padding, a.nullBitmap + b.nullBitmap, a.offsets + b.offsets⟩⟩

theorem add_def (a b : FieldAccum) : a + b =
    ⟨a.payload + b.payload, a.padding + b.padding, a.nullBitmap + b.nullBitmap, a.offsets + b.offsets⟩ := rfl

instance : AddCommMonoid FieldAccum where
  add_assoc a b c := by ext <;> simp [add_def, Nat.add_assoc]
  zero_add a := by ext <;> exact Nat.zero_add _
  add_zero a := by ext <;> exact Nat.add_zero _
  add_comm a b := by ext <;> exact Nat.add_comm _ _
  nsmul := nsmulRec

/-- The bytes of a field. -/
def bytes (a : FieldAccum) : ℕ := a.payload + a.padding + a.nullBitmap + a.offsets

@[simp] theorem bytes_zero : (0 : FieldAccum).bytes = 0 := rfl

@[simp] theorem bytes_add (a b : FieldAccum) : (a + b).bytes = a.bytes + b.bytes := by
  simp only [bytes, add_def]
  omega

theorem bytes_sum : ∀ l : List FieldAccum, l.sum.bytes = (l.map bytes).sum
  | [] => rfl
  | a :: l => by rw [List.sum_cons, bytes_add, bytes_sum l, List.map_cons, List.sum_cons]

theorem total_of {a : FieldAccum} (h : a.bytes < 2 ^ 64) : a.total = .ok a.bytes := by
  unfold bytes at h ⊢
  rw [total, usizeAdd_of (by omega), ok_bind, usizeAdd_of (by omega), ok_bind, usizeAdd_of h]

/-- `acc[slot].payload += ..`, and so on for the parts of a field. -/
def addPart (acc : List FieldAccum) (slot : ℕ) (part : FieldAccum) : Res (List FieldAccum) :=
  match acc[slot]? with
  | none => .panic
  | some a => do
    let payload ← usizeAdd a.payload part.payload
    let padding ← usizeAdd a.padding part.padding
    let nullBitmap ← usizeAdd a.nullBitmap part.nullBitmap
    let offsets ← usizeAdd a.offsets part.offsets
    .ok (acc.set slot ⟨payload, padding, nullBitmap, offsets⟩)

theorem addPart_of {acc : List FieldAccum} {slot : ℕ} {a part : FieldAccum} (h : acc[slot]? = some a)
    (hfits : (a + part).bytes < 2 ^ 64) : addPart acc slot part = .ok (acc.set slot (a + part)) := by
  rw [bytes_add] at hfits
  unfold bytes at hfits
  rw [addPart, h]
  dsimp only
  rw [usizeAdd_of (by omega), ok_bind, usizeAdd_of (by omega), ok_bind, usizeAdd_of (by omega), ok_bind,
    usizeAdd_of (by omega), ok_bind]
  rfl

end FieldAccum

open FieldAccum

/-! ## Columns -/

def accumulateFixedColumn (bm vals : Bytes) (recordCount : ℕ) (sigil : UInt8) : Res FieldAccum := do
  let bits ← usizeAdd recordCount 7
  let bmPayload := bits / 8
  let padding ← usizeSub bm.length bmPayload
  let acc ← if sigil = SIGIL_BOOL ∨ sigil = SIGIL_NULL then do
      let unused ← usizeMul recordCount 7
      let padding ← usizeAdd padding unused
      .ok (⟨recordCount, padding, bmPayload, 0⟩ : FieldAccum)
    else do
      let payload ← usizeMul recordCount 8
      .ok ⟨payload, padding, bmPayload, 0⟩
  let expected ← usizeMul recordCount 8
  ensure (¬ vals.length ≠ expected) .outOfBounds
  .ok acc

def accumulateVarColumn (bm offsets values : Bytes) (recordCount : ℕ) : Res FieldAccum := do
  let bits ← usizeAdd recordCount 7
  let bmPayload := bits / 8
  let padding ← usizeSub bm.length bmPayload
  .ok ⟨values.length, padding, bmPayload, offsets.length⟩

/-- The slot of a report in the order of the schema. -/
def slotStats (keys : List String) (sigils : List UInt8) (slot : ℕ) (a : FieldAccum) : Res FieldStats :=
  a.intoStats (keys.getD slot "") (sigils.getD slot 0)

def analyzeColumnarFields (r : Reader) : Res (List FieldStats) :=
  (List.range r.keys.length).mapM fun slot => do
    let sigil := r.keySigils.getD slot 0
    let accum ← if isVarSigil sigil then do
        let (bm, offsets, values) ← r.colFieldVarParts slot
        accumulateVarColumn bm offsets values r.recordCount
      else do
        let (bm, vals) ← r.colFieldParts slot
        accumulateFixedColumn bm vals r.recordCount sigil
    slotStats r.keys r.keySigils slot accum

/-- `acc.into_iter().enumerate()` into the fields of a report. -/
def accumStats (keys : List String) (sigils : List UInt8) (acc : List FieldAccum) : Res (List FieldStats) :=
  acc.zipIdx.mapM fun e => slotStats keys sigils e.2 e.1

/-! ## Pages -/

/-- The parts of a column on a page. -/
def paxColumnParts (sector : Bytes) (recordCount : ℕ) (sigil : UInt8) : Res FieldAccum :=
  if isVarSigil sigil then do
    let (bm, offsets, values) ← colVarParts sector recordCount
    accumulateVarColumn bm offsets values recordCount
  else do
    let bmLen ← nullBitmapLen recordCount
    let valsLen ← usizeMul recordCount 8
    let valsEnd ← usizeAdd bmLen valsLen
    let bm ← range sector 0 bmLen
    let vals ← range sector bmLen valsEnd
    accumulateFixedColumn bm vals recordCount sigil

/-- The columns of a page from field `fi` on, the first of them at `body`. -/
def paxPageFields (d : Bytes) (sigils : List UInt8) (recordCount : ℕ) : ℕ → ℕ → ℕ → List FieldAccum → Res (List FieldAccum)
  | 0, _, _, acc => .ok acc
  | n + 1, fi, body, acc => do
    let sigil := sigils.getD fi SIGIL_INT
    demand (body ≤ d.length)
    let sectorLen ← columnSectorLen (d.drop body) recordCount sigil
    let stop ← usizeAdd body sectorLen
    let sector ← range d body stop
    let part ← paxColumnParts sector recordCount sigil
    let acc ← addPart acc fi part
    paxPageFields d sigils recordCount n (fi + 1) stop acc

/-- The pages from `off` on.  A page is longer than its header, so that there are fewer of them than bytes. -/
def paxPagesLoop (d : Bytes) (sigils : List UInt8) (nkeys tailStart : ℕ) : ℕ → ℕ → List FieldAccum → Res (List FieldAccum)
  | 0, _, _ => .panic
  | fuel + 1, off, acc =>
    if off < tailStart then
      match completePageEnd d off sigils with
      | .panic => .panic
      | .err _ => .ok acc
      | .ok pageEnd => do
        ensure (¬ off + 24 > d.length) .outOfBounds
        let recordCount ← readLE d (off + 16) 4
        let fieldCount ← readLE d (off + 20) 2
        let acc ← paxPageFields d sigils recordCount (min fieldCount nkeys) 0 (off + 24) acc
        paxPagesLoop d sigils nkeys tailStart fuel pageEnd acc
    else .ok acc

def analyzePaxFields (d : Bytes) (decoded : DecodedFile) : Res (List FieldStats) := do
  let nkeys := decoded.keys.length
  let acc ← paxPagesLoop d decoded.keySigils nkeys decoded.tailStart (d.length + 1) decoded.dataSectorStart
    (List.replicate nkeys 0)
  accumStats decoded.keys decoded.keySigils acc

/-! ## Records -/

/-- `compact::is_dense_record`. -/
def isDenseRecord (d : Bytes) (offset : ℕ) : Res Bool := do
  let stop ← usizeAdd offset 9
  ensure (¬ stop > d.length) .outOfBounds
  let magic ← readLE d offset 4
  ensure (magic = MAGIC_OBJ) .badMagic
  let hdr ← index d (offset + 8)
  .ok (hasFlag hdr.toNat 1)

/-- Payload and padding of a value of a v1.2 object, or of an inline string of a compact one. -/
def rowValueWireParts (d : Bytes) (offset : ℕ) (sigil : UInt8) (ext : Option ExtendedSchema) (slot : ℕ) : Res (ℕ × ℕ) := do
  ensure (¬ offset ≥ d.length) .outOfBounds
  let isObj ← if offset + 4 ≤ d.length then do
      let magic ← readLE d offset 4
      .ok (decide (magic = MAGIC_OBJ))
    else .ok false
  if isObj then do
    ensure (¬ offset + 8 > d.length) .outOfBounds
    let len ← readLE d (offset + 4) 4
    .ok (len, 0)
  else if sigil = SIGIL_BOOL ∨ sigil = SIGIL_NULL then .ok (1, 7)
  else if sigil = SIGIL_INT ∨ sigil = SIGIL_FLOAT ∨ sigil = SIGIL_TIME then .ok (8, 0)
  else if sigil = SIGIL_KEYWORD then .ok (2, 6)
  else if sigil = SIGIL_STR ∨ sigil = SIGIL_BINARY then do
    let pre := (ext.map fun e => e.strLenPrefix slot).getD 4
    ensure (¬ offset + pre > d.length) .outOfBounds
    let len ← readStrCellLen d offset pre
    ensure (¬ (len > 1024 * 1024 * 1024 ∨ offset + pre + len > d.length)) .outOfBounds
    let content := pre + len
    .ok (content, padLen 8 content)
  else .ok (8, 0)

/-- Payload and padding of a cell of a compact record. -/
def rowCellWireParts (d : Bytes) (valOff slot : ℕ) (sigil : UInt8) (ext : ExtendedSchema) (plan : RowCellPlan) :
    Res (ℕ × ℕ) :=
  if plan.isPacked slot then
    if some slot = plan.firstBool then .ok (plan.boolWordBytes, 0) else .ok (0, 0)
  else if ext.isPromoted slot || sigil == SIGIL_KEYWORD then .ok (2, 0)
  else if sigil = SIGIL_BOOL ∨ sigil = SIGIL_NULL then .ok (1, 7)
  else if sigil = SIGIL_INT ∨ sigil = SIGIL_FLOAT ∨ sigil = SIGIL_TIME then .ok (planWidth ext plan slot, 0)
  else if sigil = SIGIL_STR ∨ sigil = SIGIL_BINARY then rowValueWireParts d valOff sigil (some ext) slot
  else .ok (8, 0)

/-- One cell of a dense record: the accumulators, the slot of the cell before it and where that cell ended. -/
def denseRowStep (d : Bytes) (objOff : ℕ) (ext : ExtendedSchema) (plan : RowCellPlan)
    (st : List FieldAccum × Option ℕ × ℕ) (slot : ℕ) : Res (List FieldAccum × Option ℕ × ℕ) :=
  if plan.isPacked slot && plan.firstBool != some slot then .ok st
  else do
    let found ← denseFieldOffset d objOff slot ext plan
    match found with
    | none => .ok st
    | some start => do
      let bodyBase ← usizeAdd objOff 9
      let relStart ← usizeSub start bodyBase
      -- the gap in front of a cell is padding of the cell before it
      let acc ← match st.2.1 with
        | some cause => if relStart > st.2.2 then addPart st.1 cause ⟨0, relStart - st.2.2, 0, 0⟩ else .ok st.1
        | none => .ok st.1
      let sigil ← index ext.sigils slot
      let parts ← rowCellWireParts d start slot sigil ext plan
      let acc ← addPart acc slot ⟨parts.1, parts.2, 0, 0⟩
      let size ← usizeAdd parts.1 parts.2
      let prevEnd ← usizeAdd relStart size
      .ok (acc, some slot, prevEnd)

def accumulateDenseRowRecord (d : Bytes) (objOff : ℕ) (ext : ExtendedSchema) (plan : RowCellPlan)
    (acc : List FieldAccum) : Res (List FieldAccum) := do
  let st ← (denseWireOrder ext plan).foldlM (denseRowStep d objOff ext plan) (acc, none, 0)
  .ok st.1

/-- The cell of a slot of a record that is not dense. -/
def rowSlotStep (d : Bytes) (extPlan : Option (ExtendedSchema × RowCellPlan)) (dense : Bool) (sigils : List UInt8)
    (objOff : ℕ) (acc : List FieldAccum) (slot : ℕ) : Res (List FieldAccum) :=
  let sigil := sigils.getD slot 0
  match extPlan with
  | some (ext, plan) =>
    match resolveFieldOffset d objOff slot ext plan dense with
    | .panic => .panic
    | .err _ => .ok acc
    | .ok valOff => do
      let parts ← rowCellWireParts d valOff slot sigil ext plan
      addPart acc slot ⟨parts.1, parts.2, 0, 0⟩
  | none =>
    match resolveSlot d objOff slot with
    | .panic => .panic
    | .err _ => .ok acc
    | .ok valOff => do
      let parts ← rowValueWireParts d valOff sigil none slot
      addPart acc slot ⟨parts.1, parts.2, 0, 0⟩

/-- The cells of record `ri`. -/
def rowRecordStep (d : Bytes) (r : Reader) (extPlan : Option (ExtendedSchema × RowCellPlan)) (dense : Bool) (nkeys : ℕ)
    (sigils : List UInt8) (acc : List FieldAccum) (ri : ℕ) : Res (List FieldAccum) := do
  let objOff ← okOr (r.record ri) .outOfBounds
  let isDense ← if dense && extPlan.isSome then isDenseRecord d objOff else .ok false
  match isDense, extPlan with
  | true, some (ext, plan) => accumulateDenseRowRecord d objOff ext plan acc
  | _, _ => (List.range nkeys).foldlM (rowSlotStep d extPlan dense sigils objOff) acc

def analyzeRowFields (d : Bytes) (r : Reader) (decoded : DecodedFile) : Res (List FieldStats) := do
  let nkeys := decoded.keys.length
  let extPlan ← if hasFlag decoded.flags FLAG_V13_COMPACT_MASK then do
      let (ext, _) ← parseExtendedSchema d 32 decoded.flags
      .ok (some (ext, RowCellPlan.new ext decoded.flags))
    else .ok none
  let dense := hasFlag decoded.flags FLAG_DENSE_FRAMES
  let acc ← (List.range decoded.recordCount).foldlM (rowRecordStep d r extPlan dense nkeys decoded.keySigils)
    (List.replicate nkeys 0)
  accumStats decoded.keys decoded.keySigils acc

/-! ## Files -/

def layoutName : Layout → String
  | .row => "row"
  | .columnar => "columnar"
  | .pax => "pax"

def footerBytes (flags : ℕ) : ℕ :=
  if hasFlag flags FLAG_PAX then 28 else if hasFlag flags FLAG_COLUMNAR then 20 else 12

def tailIndexBytes (d : Bytes) (decoded : DecodedFile) (layout : Layout) (footer : ℕ) : Res ℕ :=
  match layout with
  | .row => .ok (d.length - footer - decoded.tailPtr) -- `saturating_sub` twice
  | .columnar => .ok (decoded.keys.length * 20)
  | .pax =>
    if d.length - footer ≥ 20 then do
      let pageCount ← readLE d (d.length - footer + 16) 4
      .ok (pageCount * 28)
    else .ok 0

/-- `format_dict_hash`. -/
def formatDictHash (h : ℕ) : String :=
  let digits := Nat.toDigits 16 h
  "0x" ++ String.ofList (List.replicate (16 - digits.length) '0' ++ digits)

/-- `sort_by_key(Reverse(total))`: the largest field first, fields of one size in their order. -/
def byTotal (a b : FieldStats) : Prop := b.total ≤ a.total

instance : DecidableRel byTotal := fun a b => inferInstanceAs (Decidable (b.total ≤ a.total))

def analyzeFields (d : Bytes) (r : Reader) (decoded : DecodedFile) : Res (List FieldStats) :=
  match r.layout with
  | .row => analyzeRowFields d r decoded
  | .columnar => analyzeColumnarFields r
  | .pax => analyzePaxFields d decoded

/-- `analyze_with_path`. -/
def analyze (file : Slice) (path : Option String) : Res FileStats := do
  let d := file.bytes
  let decoded ← decode file
  let r ← Reader.new file
  let schema ← usizeSub decoded.dataSectorStart 32
  let footer := footerBytes decoded.flags
  let tailIndex ← tailIndexBytes d decoded r.layout footer
  let dataSector ← usizeSub decoded.tailPtr decoded.dataSectorStart
  let fields ← analyzeFields d r decoded
  let fields := fields.insertionSort byTotal
  let fieldBytes ← fields.foldlM (fun n f => usizeAdd n f.total) 0
  let framing := dataSector - fieldBytes -- `saturating_sub`
  .ok ⟨path, d.length, layoutName r.layout, decoded.recordCount, formatDictHash decoded.dictHash,
    ⟨32, schema, dataSector, tailIndex, footer, framing⟩, fields⟩

/-! ## Passes over the slots -/

/-- The accumulators of `n` slots. -/
def slotsOf (n : ℕ) (f : ℕ → FieldAccum) : List FieldAccum := (List.range n).map f

section

variable {n : ℕ} {f g : ℕ → FieldAccum}

theorem slotsOf_get (f : ℕ → FieldAccum) {i : ℕ} (h : i < n) : (slotsOf n f)[i]? = some (f i) := by
  rw [slotsOf, List.getElem?_map, List.getElem?_range h, Option.map_some]

theorem slotsOf_congr (h : ∀ i < n, f i = g i) : slotsOf n f = slotsOf n g :=
  List.map_congr_left fun i hi => h i (List.mem_range.mp hi)

theorem slotsOf_zero (n : ℕ) : slotsOf n (fun _ => 0) = List.replicate n 0 := by
  rw [slotsOf, List.map_const', List.length_range]

theorem slotsOf_set {i : ℕ} (hi : i < n) (x : FieldAccum) :
    (slotsOf n f).set i x = slotsOf n fun j => if j = i then x else f j := by
  refine List.ext_getElem? fun j => ?_
  by_cases hj : j < n
  · rw [slotsOf_get _ hj, List.getElem?_set, slotsOf_get _ hj]
    by_cases hij : i = j
    · rw [if_pos hij, if_pos (by rw [slotsOf, List.length_map, List.length_range]; omega), if_pos hij.symm]
    · rw [if_neg hij, if_neg (Ne.symm hij)]
  · rw [List.getElem?_eq_none (by rw [List.length_set, slotsOf, List.length_map, List.length_range]; omega),
      List.getElem?_eq_none (by rw [slotsOf, List.length_map, List.length_range]; omega)]

/-- A part added to its slot. -/
theorem addPart_slotsOf {i : ℕ} (part : FieldAccum) (hi : i < n) (hfits : (f i + part).bytes < 2 ^ 64) :
    addPart (slotsOf n f) i part = .ok (slotsOf n fun j => if j = i then f i + part else f j) := by
  rw [addPart_of (slotsOf_get f hi) hfits, slotsOf_set hi]

/-- A pass over the slots that adds to each of them its part. -/
theorem slots_loop (step : List FieldAccum → ℕ → Res (List FieldAccum)) (part : ℕ → FieldAccum)
    (hstep : ∀ i < n, ∀ h : ℕ → FieldAccum, h i = f i →
      step (slotsOf n h) i = .ok (slotsOf n fun j => if j = i then f i + part i else h j)) :
    (List.range n).foldlM step (slotsOf n f) = .ok (slotsOf n fun i => f i + part i) := by
  have hloop : ∀ k ≤ n, (List.range k).foldlM step (slotsOf n f) =
      .ok (slotsOf n fun i => if i < k then f i + part i else f i) := by
    intro k hk
    induction k with
    | zero => exact congrArg Outcome.ok (slotsOf_congr fun i _ => (if_neg (Nat.not_lt_zero i)).symm)
    | succ k ih =>
      rw [List.range_succ, List.foldlM_append, ih (by omega), ok_bind, List.foldlM_cons,
        hstep k (by omega) _ (if_neg (Nat.lt_irrefl k)), ok_bind]
      refine congrArg Outcome.ok (slotsOf_congr fun i _ => ?_)
      by_cases hi : i = k
      · rw [if_pos hi, if_pos (by omega), hi]
      · by_cases hlt : i < k
        · rw [if_neg hi, if_pos hlt, if_pos (by omega)]
        · rw [if_neg hi, if_neg hlt, if_neg (by omega)]
  rw [hloop n (Nat.le_refl n)]
  exact congrArg Outcome.ok (slotsOf_congr fun i hi => if_pos hi)

end

/-! ## Reports of slots -/

/-- A field of a report. -/
def FieldAccum.stats (a : FieldAccum) (name : String) (sigil : UInt8) : FieldStats :=
  ⟨name, String.singleton (Char.ofNat sigil.toNat), a.payload, a.padding, a.nullBitmap, a.offsets, a.bytes⟩

/-- The fields of a report, in the order of the schema. -/
def statsOf (keys : List String) (sigils : List UInt8) (f : ℕ → FieldAccum) : List FieldStats :=
  (List.range keys.length).map fun slot => (f slot).stats (keys.getD slot "") (sigils.getD slot 0)

section

variable {keys : List String} {sigils : List UInt8} {f : ℕ → FieldAccum}

theorem slotStats_of {slot : ℕ} {a : FieldAccum} (h : a.bytes < 2 ^ 64) :
    slotStats keys sigils slot a = .ok (a.stats (keys.getD slot "") (sigils.getD slot 0)) := by
  rw [slotStats, intoStats, total_of h, ok_bind]
  rfl

theorem slotsOf_zipIdx (n : ℕ) (f : ℕ → FieldAccum) : (slotsOf n f).zipIdx = (List.range n).map fun i => (f i, i) := by
  refine List.ext_getElem? fun i => ?_
  rw [List.getElem?_zipIdx, slotsOf, List.getElem?_map, List.getElem?_map, Option.map_map]
  by_cases hi : i < n
  · rw [List.getElem?_range hi, Option.map_some, Option.map_some, Nat.zero_add]
    rfl
  · rw [List.getElem?_eq_none (by rw [List.length_range]; omega)]
    rfl

theorem accumStats_of (h : ∀ slot < keys.length, (f slot).bytes < 2 ^ 64) :
    accumStats keys sigils (slotsOf keys.length f) = .ok (statsOf keys sigils f) := by
  rw [accumStats, slotsOf_zipIdx, mapM_eq_ok, statsOf, List.forall₂_map_left_iff, List.forall₂_map_right_iff, List.forall₂_same]
  exact fun slot hslot => slotStats_of (h slot (List.mem_range.mp hslot))

theorem statsOf_total (keys : List String) (sigils : List UInt8) (f : ℕ → FieldAccum) : ((statsOf keys sigils f).map FieldStats.total).sum =
    ((List.range keys.length).map fun slot => (f slot).bytes).sum := by
  rw [statsOf, List.map_map]
  rfl

end

theorem sumTotals_of : ∀ {l : List FieldStats} {n : ℕ}, n + (l.map FieldStats.total).sum < 2 ^ 64 →
    l.foldlM (fun n f => (usizeAdd n f.total : Res ℕ)) n = .ok (n + (l.map FieldStats.total).sum)
  | [], _, _ => rfl
  | f :: l, n, h => by
    rw [List.map_cons, List.sum_cons] at h ⊢
    rw [List.foldlM_cons, usizeAdd_of (by omega), ok_bind, sumTotals_of (by omega), Nat.add_assoc]

/-- A report covers a file: the segments its bytes, fields and framing the data sector. -/
structure FileStats.Accounts (s : FileStats) (file : Slice) : Prop where
  fileSize : s.fileSize = file.bytes.length
  segments : s.segments.preamble + s.segments.schema + s.segments.dataSector + s.segments.tailIndex + s.segments.footer =
    s.fileSize
  sector : (s.fields.map FieldStats.total).sum + s.segments.framing = s.segments.dataSector
  sorted : s.fields.Pairwise byTotal

/-- The report of a file whose fields are known. -/
theorem analyze_of {file : Slice} {decoded : DecodedFile} {r : Reader} {start t : ℕ}
    (path : Option String) (tailIndex : ℕ) (fields : List FieldStats) (hdec : decode file = .ok decoded) (hr : Reader.new file = .ok r)
    (hstart : decoded.dataSectorStart = start) (ht : decoded.tailPtr = t) (h32 : 32 ≤ start) (hle : start ≤ t)
    (hindex : tailIndexBytes file.bytes decoded r.layout (footerBytes decoded.flags) = .ok tailIndex)
    (hlen : t + tailIndex + footerBytes decoded.flags = file.bytes.length)
    (hfields : analyzeFields file.bytes r decoded = .ok fields) (hsum : (fields.map FieldStats.total).sum ≤ t - start) :
    ∃ s, analyze file path = .ok s ∧ s.Accounts file ∧ s.path = path ∧ s.layout = layoutName r.layout ∧
      s.recordCount = decoded.recordCount ∧ s.segments.framing = t - start - (fields.map FieldStats.total).sum ∧
      s.fields.Perm fields := by
  have hsmall := file.small
  have hperm : (fields.insertionSort byTotal).Perm fields := List.perm_insertionSort byTotal fields
  have htotal : ((fields.insertionSort byTotal).map FieldStats.total).sum = (fields.map FieldStats.total).sum :=
    (hperm.map FieldStats.total).sum_eq
  have hsorted : (fields.insertionSort byTotal).Pairwise byTotal := by
    have : Std.Total byTotal := ⟨fun a b => Nat.le_total b.total a.total⟩
    have : IsTrans FieldStats byTotal := ⟨fun a b c hab hbc => Nat.le_trans hbc hab⟩
    exact List.pairwise_insertionSort byTotal fields
  refine ⟨⟨path, file.bytes.length, layoutName r.layout, decoded.recordCount, formatDictHash decoded.dictHash,
    ⟨32, start - 32, t - start, tailIndex, footerBytes decoded.flags, t - start - (fields.map FieldStats.total).sum⟩,
    fields.insertionSort byTotal⟩, ?_, ?_⟩
  · rw [analyze, hdec]
    dsimp only
    rw [ok_bind, hr, ok_bind, hstart, usizeSub_of h32, ok_bind, hindex, ok_bind, ht, usizeSub_of hle, ok_bind, hfields,
      ok_bind, sumTotals_of (by rw [htotal]; omega), ok_bind, Nat.zero_add, htotal]
  · refine ⟨⟨rfl, ?_, ?_, hsorted⟩, rfl, rfl, rfl, rfl, hperm⟩
    · dsimp only
      omega
    · dsimp only
      rw [htotal]
      omega

end Nyxis

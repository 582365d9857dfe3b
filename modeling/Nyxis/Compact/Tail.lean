import Nyxis.Format

/-!
# Compact.Tail — the block-anchored tail-index

`buildDeltaTailIndex` stores one absolute anchor for every `block_size` records and a `u32` distance
from its anchor for each record; `parseDeltaTailLayout` finds the two tables and `deltaRecordOffset`
looks a record up.

* `parseDeltaTailLayout_build`: the layout of a table is found again.
* `buildDeltaTailIndex_at`: where the anchor and the distance of a record stand.
-/

namespace Nyxis

open Lib Lib.Outcome

/-- Where the tables of a delta tail-index are. -/
structure DeltaTailLayout where
  tailPtr : ℕ
  recordCount : ℕ
  blockSize : ℕ
  singleKeyId : Bool
  anchorsOff : ℕ
  deltasOff : ℕ
  keyIdsOff : Option ℕ
  deriving DecidableEq, Repr

/-- `(pos + align - 1) & !(align - 1)`. -/
def alignTo (pos align : ℕ) : ℕ :=
  if align = 0 then pos else (pos + align - 1) &&& (2 ^ 64 - align)

/-- The distance of record `k` from its block's anchor, as a `u32`. -/
def recordDelta (anchors : List ℕ) (a k abs : ℕ) : Res ℕ := do
  let anchor := anchors.getD (k / a) 0
  ensure (anchor ≤ abs) .outOfBounds
  ensure (¬ abs - anchor > 2 ^ 32 - 1) .overflow
  .ok (abs - anchor)

/-- The deltas of the records from `k` on. -/
def recordDeltas (anchors : List ℕ) (a : ℕ) : ℕ → List ℕ → Res (List ℕ)
  | _, [] => .ok []
  | k, abs :: rest => do
    let delta ← recordDelta anchors a k abs
    let deltas ← recordDeltas anchors a (k + 1) rest
    .ok (delta :: deltas)

def buildDeltaTailIndex (absOffsets : List ℕ) (tailPtr blockSize : ℕ) : Res Bytes := do
  let n := absOffsets.length
  let a := max blockSize 1
  let anchorCount := if n = 0 then 0 else (n + a - 1) / a
  let anchors := (List.range anchorCount).map fun j => absOffsets.getD (j * a) 0
  let deltas ← recordDeltas anchors a 0 absOffsets
  let header := padTo 8
    (leBytes 4 n ++ leBytes 4 blockSize ++ leBytes 2 1 ++ leBytes 2 anchorCount) -- single KeyID
  .ok (header ++ anchors.flatMap (leBytes 8) ++ deltas.flatMap (leBytes 4) ++ leBytes 8 tailPtr ++
    leBytes 4 MAGIC_FOOTER)

/-- The bytes of the key ids, which a tail with a single one leaves out. -/
def keyIdBytes (recordCount : ℕ) (singleKeyId : Bool) : Res ℕ :=
  if singleKeyId then .ok 0 else okOr (checkedMul recordCount 2) .outOfBounds

def parseDeltaTailLayout (d : Bytes) (tailPtr : ℕ) : Res DeltaTailLayout := do
  let headerEnd ← okOr (checkedAdd tailPtr 8) .outOfBounds
  ensure (¬ headerEnd > d.length) .outOfBounds
  let recordCount ← readLE d tailPtr 4
  let blockSizeAt ← usizeAdd tailPtr 4
  let blockSize ← readLE d blockSizeAt 4
  let fixedEnd ← usizeAdd tailPtr 12
  ensure (¬ fixedEnd > d.length) .outOfBounds
  let flagsAt ← usizeAdd tailPtr 8
  let tiFlags ← readLE d flagsAt 2
  let anchorCountAt ← usizeAdd tailPtr 10
  let anchorCount ← readLE d anchorCountAt 2
  let anchorsOff ← okOr (checkedAdd tailPtr (alignTo 12 8)) .outOfBounds
  let anchorBytes ← okOr (checkedMul anchorCount 8) .outOfBounds
  let deltasOff ← okOr (checkedAdd anchorsOff anchorBytes) .outOfBounds
  let deltaBytes ← okOr (checkedMul recordCount 4) .outOfBounds
  let p ← okOr (checkedAdd deltasOff deltaBytes) .outOfBounds
  let singleKeyId := hasFlag tiFlags 1
  let keyBytes ← keyIdBytes recordCount singleKeyId
  let stop ← okOr (checkedAdd p keyBytes) .outOfBounds
  ensure (¬ stop > d.length) .outOfBounds
  .ok ⟨tailPtr, recordCount, blockSize, singleKeyId, anchorsOff, deltasOff,
    if singleKeyId then none else some p⟩

/-- The `w` bytes of a cell at `offset`, as a number. -/
def cellBytes (w : ℕ) (d : Bytes) (offset : ℕ) : Res ℕ := do
  let stop ← okOr (checkedAdd offset w) .outOfBounds
  let bytes ← okOr (getRange d offset stop) .outOfBounds
  .ok (leNat bytes)

def deltaRecordOffset (d : Bytes) (layout : DeltaTailLayout) (i : ℕ) : Res ℕ := do
  ensure (¬ i ≥ layout.recordCount) .outOfBounds
  let a := max layout.blockSize 1
  let anchorRel ← okOr (checkedMul (i / a) 8) .outOfBounds
  let anchorOff ← okOr (checkedAdd layout.anchorsOff anchorRel) .outOfBounds
  let anchor ← cellBytes 8 d anchorOff
  let deltaRel ← okOr (checkedMul i 4) .outOfBounds
  let deltaOff ← okOr (checkedAdd layout.deltasOff deltaRel) .outOfBounds
  let delta ← cellBytes 4 d deltaOff
  okOr (checkedAdd anchor delta) .outOfBounds

/-! ## Looking a record up again -/

/-- How many anchors a tail-index of `n` records has. -/
def anchorCountOf (n blockSize : ℕ) : ℕ :=
  if n = 0 then 0 else (n + max blockSize 1 - 1) / max blockSize 1

/-- The anchors: the offset of each block's first record. -/
def anchorsOf (absOffsets : List ℕ) (blockSize : ℕ) : List ℕ :=
  (List.range (anchorCountOf absOffsets.length blockSize)).map fun j => absOffsets.getD (j * max blockSize 1) 0

theorem buildDeltaTailIndex_eq_ok {absOffsets : List ℕ} {tailPtr blockSize : ℕ} {tail : Bytes} :
    buildDeltaTailIndex absOffsets tailPtr blockSize = .ok tail ↔
      ∃ deltas, recordDeltas (anchorsOf absOffsets blockSize) (max blockSize 1) 0 absOffsets = .ok deltas ∧
        tail = padTo 8 (leBytes 4 absOffsets.length ++ leBytes 4 blockSize ++ leBytes 2 1 ++
          leBytes 2 (anchorCountOf absOffsets.length blockSize)) ++
          (anchorsOf absOffsets blockSize).flatMap (leBytes 8) ++ deltas.flatMap (leBytes 4) ++ leBytes 8 tailPtr ++
          leBytes 4 MAGIC_FOOTER := by
  rw [buildDeltaTailIndex]
  constructor
  · intro h
    obtain ⟨deltas, hdeltas, h⟩ := bind_eq_ok.mp h
    cases h
    exact ⟨deltas, hdeltas, rfl⟩
  · rintro ⟨deltas, hdeltas, rfl⟩
    exact bind_eq_ok.mpr ⟨deltas, hdeltas, rfl⟩

/-- Each delta is the distance to the anchor of its block. -/
theorem recordDeltas_spec {anchors : List ℕ} {a : ℕ} : ∀ {absOffsets : List ℕ} {k : ℕ} {deltas : List ℕ},
    recordDeltas anchors a k absOffsets = .ok deltas → deltas.length = absOffsets.length ∧
      ∀ i abs, absOffsets[i]? = some abs → ∃ delta, deltas[i]? = some delta ∧ delta < 2 ^ 32 ∧
        anchors.getD ((k + i) / a) 0 + delta = abs
  | [], _, _, h => by
    cases h
    exact ⟨rfl, fun i abs hi => by cases hi⟩
  | abs :: rest, k, _, h => by
    obtain ⟨delta, hdelta, h1⟩ := bind_eq_ok.mp h
    obtain ⟨deltas, hrest, h2⟩ := bind_eq_ok.mp h1
    cases h2
    obtain ⟨_, hle, hdelta⟩ := bind_eq_ok.mp hdelta
    obtain ⟨_, hfit, hdelta⟩ := bind_eq_ok.mp hdelta
    cases hdelta
    rw [ensure_eq_ok] at hle hfit
    obtain ⟨hlen, ih⟩ := recordDeltas_spec hrest
    refine ⟨by rw [List.length_cons, List.length_cons, hlen], fun i abs' hi => ?_⟩
    cases i with
    | zero =>
      cases hi
      exact ⟨_, rfl, by omega, by rw [Nat.add_zero]; omega⟩
    | succ i =>
      rw [List.getElem?_cons_succ] at hi ⊢
      rw [show k + (i + 1) = k + 1 + i by omega]
      exact ih i abs' hi

/-- Where the tables of a tail-index at `tailPtr` are; its counts are truncated to their fields. -/
def builtLayout (absOffsets : List ℕ) (tailPtr blockSize : ℕ) : DeltaTailLayout where
  tailPtr := tailPtr
  recordCount := absOffsets.length % 2 ^ 32
  blockSize := blockSize % 2 ^ 32
  singleKeyId := true
  anchorsOff := tailPtr + 16
  deltasOff := tailPtr + 16 + anchorCountOf absOffsets.length blockSize % 65536 * 8
  keyIdsOff := none

theorem parseDeltaTailLayout_build {d tail : Bytes} {absOffsets : List ℕ} {tailPtr blockSize : ℕ}
    (hd : d.length < 2 ^ 63) (h : buildDeltaTailIndex absOffsets tailPtr blockSize = .ok tail) (hat : At d tailPtr tail) :
    parseDeltaTailLayout d tailPtr = .ok (builtLayout absOffsets tailPtr blockSize) := by
  obtain ⟨deltas, hdeltas, rfl⟩ := buildDeltaTailIndex_eq_ok.mp h
  have hlen := (recordDeltas_spec hdeltas).1
  have hanchors : ((anchorsOf absOffsets blockSize).flatMap (leBytes 8)).length =
      anchorCountOf absOffsets.length blockSize * 8 := by
    rw [length_flatMap_const fun n _ => leBytes_length 8 n, anchorsOf, List.length_map, List.length_range]
  have hdl : (deltas.flatMap (leBytes 4)).length = absOffsets.length * 4 := by
    rw [length_flatMap_const fun n _ => leBytes_length 4 n, hlen]
  have hle := hat.le
  simp only [List.length_append, padTo_length, leBytes_length, hanchors, hdl] at hle
  have hpad : padLen 8 (4 + 4 + 2 + 2) = 4 := rfl
  rw [hpad] at hle
  rw [at_append, at_append, at_append, at_append, padTo, at_append, at_append, at_append, at_append] at hat
  obtain ⟨⟨⟨⟨⟨⟨⟨⟨hn, hbs⟩, hfl⟩, hac⟩, -⟩, -⟩, -⟩, -⟩, -⟩ := hat
  simp only [List.length_append, leBytes_length] at hbs hfl hac
  have hmodn : absOffsets.length % 2 ^ 32 ≤ absOffsets.length := Nat.mod_le _ _
  have hmoda : anchorCountOf absOffsets.length blockSize % 65536 ≤ anchorCountOf absOffsets.length blockSize :=
    Nat.mod_le _ _
  rw [parseDeltaTailLayout, checkedAdd_of (by omega), okOr_ok, ok_bind, ensure_of (by omega), ok_bind,
    readLE_leBytes_mod hn hd, ok_bind, usizeAdd_of (by omega), ok_bind, readLE_leBytes_mod hbs hd, ok_bind,
    usizeAdd_of (by omega), ok_bind, ensure_of (by omega), ok_bind, usizeAdd_of (by omega), ok_bind,
    readLE_leBytes hfl (by decide) hd, ok_bind, usizeAdd_of (by omega), ok_bind, readLE_leBytes_mod hac hd, ok_bind,
    show alignTo 12 8 = 16 from rfl, checkedAdd_of (by omega), okOr_ok, ok_bind, checkedMul_of (by omega), okOr_ok,
    ok_bind, checkedAdd_of (by omega), okOr_ok, ok_bind, checkedMul_of (by omega), okOr_ok, ok_bind,
    checkedAdd_of (by omega), okOr_ok, ok_bind]
  dsimp only
  rw [show hasFlag 1 1 = true from rfl, keyIdBytes, if_pos rfl, ok_bind, checkedAdd_of (by omega), okOr_ok, ok_bind,
    ensure_of (by omega), ok_bind]
  rfl

theorem cellBytes_at {d : Bytes} {w n off : ℕ} (hd : d.length < 2 ^ 63) (hat : At d off (leBytes w n))
    (hn : n < 256 ^ w) : cellBytes w d off = .ok n := by
  have hle := hat.le
  rw [leBytes_length] at hle
  have hrange := getRange_at hat
  rw [leBytes_length] at hrange
  rw [cellBytes, checkedAdd_of (by omega), okOr_ok, ok_bind, hrange, okOr_ok, ok_bind, leNat_leBytes hn]

/-- The anchor of a record's block and the distance of the record from it, in the tables of a tail-index. -/
theorem buildDeltaTailIndex_at {d tail : Bytes} {absOffsets : List ℕ} {tailPtr blockSize i abs : ℕ}
    (h : buildDeltaTailIndex absOffsets tailPtr blockSize = .ok tail) (hat : At d tailPtr tail) (hi : absOffsets[i]? = some abs) :
    ∃ anchor delta, anchor + delta = abs ∧ delta < 2 ^ 32 ∧ i / max blockSize 1 < anchorCountOf absOffsets.length blockSize ∧
      At d (tailPtr + 16 + i / max blockSize 1 * 8) (leBytes 8 anchor) ∧
      At d (tailPtr + 16 + anchorCountOf absOffsets.length blockSize * 8 + i * 4) (leBytes 4 delta) := by
  obtain ⟨deltas, hdeltas, rfl⟩ := buildDeltaTailIndex_eq_ok.mp h
  obtain ⟨hlen, hspec⟩ := recordDeltas_spec hdeltas
  obtain ⟨delta, hdelta, hfit, hsum⟩ := hspec i abs hi
  have hilt := (List.getElem?_eq_some_iff.mp hi).1
  rw [Nat.zero_add] at hsum
  set a := max blockSize 1 with ha
  have hapos : 0 < a := by omega
  have hcount : i / a < anchorCountOf absOffsets.length blockSize := by
    rw [anchorCountOf, ← ha, if_neg (by omega), Nat.div_lt_iff_lt_mul hapos]
    have hdiv := Nat.div_add_mod (absOffsets.length + a - 1) a
    have hmod := Nat.mod_lt (absOffsets.length + a - 1) hapos
    rw [Nat.mul_comm] at hdiv
    omega
  have hanchor : (anchorsOf absOffsets blockSize)[i / a]? = some ((anchorsOf absOffsets blockSize).getD (i / a) 0) := by
    have hlt : i / a < (anchorsOf absOffsets blockSize).length := by
      rwa [anchorsOf, List.length_map, List.length_range]
    rw [List.getD_eq_getElem?_getD, List.getElem?_eq_getElem hlt, Option.getD_some]
  have hanchors : ((anchorsOf absOffsets blockSize).flatMap (leBytes 8)).length =
      anchorCountOf absOffsets.length blockSize * 8 := by
    rw [length_flatMap_const fun n _ => leBytes_length 8 n, anchorsOf, List.length_map, List.length_range]
  rw [at_append, at_append, at_append, at_append] at hat
  obtain ⟨⟨⟨⟨-, hans⟩, hdls⟩, -⟩, -⟩ := hat
  simp only [List.length_append, padTo_length, leBytes_length, hanchors, show padLen 8 (4 + 4 + 2 + 2) = 4 from rfl]
    at hans hdls
  have hanchorAt := hans.trans (at_flatMap_const (fun n _ => leBytes_length 8 n) hanchor)
  have hdeltaAt := hdls.trans (at_flatMap_const (fun n _ => leBytes_length 4 n) hdelta)
  rw [← Nat.add_assoc tailPtr] at hdeltaAt
  exact ⟨_, delta, hsum, hfit, hcount, hanchorAt, hdeltaAt⟩

end Nyxis

import Nyxis.Calls
import Nyxis.Compact.Cells

/-!
# NarrowWidths — the width of an integer column

A compact writer keeps the least and the greatest integer that was written to each slot, and the width of the
slot's cells is inferred from the two.  Cells of one byte are unsigned, wider ones are signed.

* `WriterOp.run_ranged`: the two bounds are those of the integers written, whatever else was called.
* `width_le_iff`: a width can encode all of them exactly when it is not below the inferred one.
* `narrow_width_sound`: the inferred width loses nothing, and no smaller one would do.
-/

namespace Nyxis

open Lib Lib.Outcome

/-! ## Bounds of a list -/

theorem le_foldl_min {a : Int64} : ∀ {vs : List Int64} {m : Int64}, a ≤ vs.foldl min m ↔ a ≤ m ∧ ∀ v ∈ vs, a ≤ v
  | [], m => by simp
  | v :: vs, m => by
    rw [List.foldl_cons, le_foldl_min, Std.le_min_iff, List.forall_mem_cons, and_assoc]

theorem max_le_int64 {a x y : Int64} : max x y ≤ a ↔ x ≤ a ∧ y ≤ a := by
  have hmax : max x y = if x ≤ y then y else x := rfl
  rw [hmax]
  simp only [Int64.le_iff_toInt_le]
  split <;> omega

theorem foldl_max_le {a : Int64} : ∀ {vs : List Int64} {m : Int64}, vs.foldl max m ≤ a ↔ m ≤ a ∧ ∀ v ∈ vs, v ≤ a
  | [], m => by simp
  | v :: vs, m => by
    rw [List.foldl_cons, foldl_max_le, max_le_int64, List.forall_mem_cons, and_assoc]

/-! ## Calls -/

/-- A method of the writer. -/
inductive WriterOp where
  | beginObject
  | endObject
  | write (c : Call)
  deriving DecidableEq, Repr

namespace WriterOp

def step (sorter : SlotSort) (w : NxsWriter) : WriterOp → Res NxsWriter
  | .beginObject => .ok w.beginObject
  | .endObject => w.endObjectBy sorter
  | .write c => w.write c

def run (sorter : SlotSort) (w : NxsWriter) (ops : List WriterOp) : Res NxsWriter := ops.foldlM (step sorter) w

/-- The integer that is written to `slot`, if the call is one of `write_i64` for it. -/
def int? (slot : ℕ) : WriterOp → Option Int64
  | .write ⟨s, .i64 v⟩ => if s = slot then some v else none
  | _ => none

/-- The integers that are written to `slot`. -/
def ints (slot : ℕ) (ops : List WriterOp) : List Int64 := ops.filterMap (int? slot)

end WriterOp

/-- The bounds that the writer keeps for a slot are those of `vs`. -/
structure Ranged (slot : ℕ) (vs : List Int64) (w : NxsWriter) : Prop where
  min : w.intMin[slot]? = some (vs.foldl min Int64.maxValue)
  max : w.intMax[slot]? = some (vs.foldl max Int64.minValue)

/-- Neither bound of any slot changes. -/
structure SameRanges (w w' : NxsWriter) : Prop where
  min : w'.intMin = w.intMin
  max : w'.intMax = w.intMax

section

variable {w w' : NxsWriter} {slot : ℕ} {vs : List Int64}

theorem Ranged.same (h : Ranged slot vs w) (hw : SameRanges w w') : Ranged slot vs w' :=
  ⟨by rw [hw.min, h.min], by rw [hw.max, h.max]⟩

theorem SameRanges.trans {w₁ : NxsWriter} (h : SameRanges w w₁) (h₁ : SameRanges w₁ w') : SameRanges w w' :=
  ⟨h₁.min.trans h.min, h₁.max.trans h.max⟩

theorem sameRanges_markSlotSigil (w : NxsWriter) (slot : ℕ) (sigil : UInt8) :
    SameRanges w (w.markSlotSigil slot sigil) := by
  rw [NxsWriter.markSlotSigil_eq]
  exact ⟨rfl, rfl⟩

theorem sameRanges_writeBytesAt {bytes : Bytes} (h : w.writeBytesAt slot bytes = .ok w') : SameRanges w w' := by
  obtain ⟨w₁, hmark, h⟩ := bind_eq_ok.mp h
  cases h
  rw [NxsWriter.markSlot] at hmark
  split at hmark
  · cases hmark
  · obtain ⟨byte, -, hmark⟩ := bind_eq_ok.mp hmark
    cases hmark
    exact ⟨rfl, rfl⟩

theorem sameRanges_writeCell {cell : CompactCell} {bytes : Bytes} (h : w.writeCell slot cell bytes = .ok w') :
    SameRanges w w' := by
  rw [NxsWriter.writeCell] at h
  split at h
  · cases h
    rw [NxsWriter.pushCompact]
    split <;> exact ⟨rfl, rfl⟩
  · exact sameRanges_writeBytesAt h

/-- A write notes its integer, and nothing else. -/
theorem sameRanges_write {c : Call} (h : w.write c = .ok w') : SameRanges (match c.arg with
    | .i64 v => w.noteInt c.slot v
    | _ => w) w' := by
  obtain ⟨slot, arg⟩ := c
  have hmark := fun sigil => sameRanges_markSlotSigil w slot sigil
  cases arg with
  | i64 v =>
    have hnote : SameRanges (w.noteInt slot v) ((w.markSlotSigil slot SIGIL_INT).noteInt slot v) := by
      rw [NxsWriter.markSlotSigil_eq]
      exact ⟨rfl, rfl⟩
    exact hnote.trans (sameRanges_writeCell h)
  | str v =>
    have hnote : SameRanges w ((w.markSlotSigil slot SIGIL_STR).noteStr slot v) :=
      ⟨(hmark SIGIL_STR).min, (hmark SIGIL_STR).max⟩
    exact hnote.trans (sameRanges_writeCell h)
  | f64 v => exact (hmark SIGIL_FLOAT).trans (sameRanges_writeCell h)
  | bool v => exact (hmark SIGIL_BOOL).trans (sameRanges_writeCell h)
  | time v => exact (hmark SIGIL_TIME).trans (sameRanges_writeCell h)
  | null => exact (hmark SIGIL_NULL).trans (sameRanges_writeBytesAt h)
  | bytes v => exact (hmark SIGIL_BINARY).trans (sameRanges_writeBytesAt h)
  | listI64 values => exact (hmark 0x4C).trans (sameRanges_writeBytesAt h)
  | listF64 values => exact (hmark 0x4C).trans (sameRanges_writeBytesAt h)

theorem sameRanges_beginObject (w : NxsWriter) : SameRanges w w.beginObject := by
  rw [NxsWriter.beginObject]
  dsimp only
  split <;> exact ⟨rfl, rfl⟩

theorem sameRanges_endObjectBy {sorter : SlotSort} (h : w.endObjectBy sorter = .ok w') : SameRanges w w' := by
  rw [NxsWriter.endObjectBy] at h
  split at h
  · cases h
  split at h
  · cases h
    exact ⟨rfl, rfl⟩
  · obtain ⟨_, -, h⟩ := bind_eq_ok.mp h
    obtain ⟨_, -, h⟩ := bind_eq_ok.mp h
    obtain ⟨_, -, h⟩ := bind_eq_ok.mp h
    obtain ⟨_, -, h⟩ := bind_eq_ok.mp h
    obtain ⟨_, -, h⟩ := bind_eq_ok.mp h
    cases h
    exact ⟨rfl, rfl⟩

/-- An integer of the slot, or of another slot. -/
theorem Ranged.noteInt (h : Ranged slot vs w) (s : ℕ) (v : Int64) :
    Ranged slot (vs ++ if s = slot then [v] else []) (w.noteInt s v) := by
  have hset : ∀ (l : List Int64) (x y : Int64), l[slot]? = some x →
      (l.set s y)[slot]? = some (if s = slot then y else x) := by
    intro l x y hl
    obtain ⟨hlt, -⟩ := List.getElem?_eq_some_iff.mp hl
    rw [List.getElem?_set, hl]
    by_cases hs : s = slot
    · rw [if_pos hs, if_pos hs, if_pos (hs ▸ hlt)]
    · rw [if_neg hs, if_neg hs]
  have hget : ∀ (l : List Int64) (x : Int64), l[slot]? = some x → s = slot → l.getD s 0 = x := by
    intro l x hl hs
    rw [hs, List.getD_eq_getElem?_getD, hl, Option.getD_some]
  constructor
  · rw [NxsWriter.noteInt, hset _ _ _ h.min]
    by_cases hs : s = slot
    · rw [if_pos hs, if_pos hs, hget _ _ h.min hs, List.foldl_append, List.foldl_cons, List.foldl_nil]
    · rw [if_neg hs, if_neg hs, List.append_nil]
  · rw [NxsWriter.noteInt, hset _ _ _ h.max]
    by_cases hs : s = slot
    · rw [if_pos hs, if_pos hs, hget _ _ h.max hs, List.foldl_append, List.foldl_cons, List.foldl_nil]
    · rw [if_neg hs, if_neg hs, List.append_nil]

/-- What one call does to the bounds of a slot. -/
theorem Ranged.step (h : Ranged slot vs w) {sorter : SlotSort} {op : WriterOp} (hop : op.step sorter w = .ok w') :
    Ranged slot (vs ++ (op.int? slot).toList) w' := by
  cases op with
  | beginObject =>
    cases hop
    rw [show (WriterOp.beginObject.int? slot).toList = [] from rfl, List.append_nil]
    exact h.same (sameRanges_beginObject w)
  | endObject =>
    rw [show (WriterOp.endObject.int? slot).toList = [] from rfl, List.append_nil]
    exact h.same (sameRanges_endObjectBy hop)
  | write c =>
    have hsame := sameRanges_write hop
    obtain ⟨s, arg⟩ := c
    cases arg with
    | i64 v =>
      have hint : ((WriterOp.write ⟨s, .i64 v⟩).int? slot).toList = if s = slot then [v] else [] := by
        rw [WriterOp.int?]
        split <;> rfl
      rw [hint]
      exact (h.noteInt s v).same hsame
    | _ =>
      rw [WriterOp.int?, Option.toList_none, List.append_nil]
      · exact h.same hsame
      · intro s' v' heq
        cases heq

theorem WriterOp.run_ranged {sorter : SlotSort} : ∀ {ops : List WriterOp} {w : NxsWriter} {vs : List Int64},
    Ranged slot vs w → WriterOp.run sorter w ops = .ok w' → Ranged slot (vs ++ WriterOp.ints slot ops) w'
  | [], w, vs, h, hrun => by
    cases hrun
    rw [WriterOp.ints, List.filterMap_nil, List.append_nil]
    exact h
  | op :: ops, w, vs, h, hrun => by
    rw [WriterOp.run, List.foldlM_cons] at hrun
    obtain ⟨w₁, hstep, hrun⟩ := bind_eq_ok.mp hrun
    have hlist : WriterOp.ints slot (op :: ops) = (op.int? slot).toList ++ WriterOp.ints slot ops := by
      rw [WriterOp.ints, WriterOp.ints, List.filterMap_cons]
      cases op.int? slot <;> rfl
    rw [hlist, ← List.append_assoc]
    exact run_ranged (h.step hstep) hrun

end

/-! ## Widths -/

/-- A cell of `k` bytes can hold each of the integers. -/
def Encodes (vs : List Int64) (k : ℕ) : Prop := ∀ v ∈ vs, (encodeIntCell v k).isOk = true

/-- The first width whose bounds hold is the least one, where each bound entails the next. -/
theorem widths_le {p q r : Prop} [Decidable p] [Decidable q] [Decidable r] (hpq : p → q) (hqr : q → r) :
    ((if p then 1 else if q then 2 else if r then 4 else (8 : UInt8)).toNat ≤ 1 ↔ p) ∧
      ((if p then 1 else if q then 2 else if r then 4 else (8 : UInt8)).toNat ≤ 2 ↔ q) ∧
      ((if p then 1 else if q then 2 else if r then 4 else (8 : UInt8)).toNat ≤ 4 ↔ r) ∧
      (if p then 1 else if q then 2 else if r then 4 else (8 : UInt8)).toNat ≤ 8 := by
  by_cases hp : p
  · rw [if_pos hp]
    exact ⟨iff_of_true (by decide) hp, iff_of_true (by decide) (hpq hp), iff_of_true (by decide) (hqr (hpq hp)), by decide⟩
  rw [if_neg hp]
  by_cases hq : q
  · rw [if_pos hq]
    exact ⟨iff_of_false (by decide) hp, iff_of_true (by decide) hq, iff_of_true (by decide) (hqr hq), by decide⟩
  rw [if_neg hq]
  by_cases hr : r
  · rw [if_pos hr]
    exact ⟨iff_of_false (by decide) hp, iff_of_false (by decide) hq, iff_of_true (by decide) hr, by decide⟩
  · rw [if_neg hr]
    exact ⟨iff_of_false (by decide) hp, iff_of_false (by decide) hq, iff_of_false (by decide) hr, by decide⟩

/-- Of the widths that there are, those from the inferred one on can hold all integers in the bounds. -/
theorem width_le_iff {vs : List Int64} {k : ℕ} (hk : k = 1 ∨ k = 2 ∨ k = 4 ∨ k = 8) :
    Encodes vs k ↔ (inferIntWidth (vs.foldl min Int64.maxValue) (vs.foldl max Int64.minValue)).toNat ≤ k := by
  have hmin : ∀ a : Int64, vs.foldl min Int64.maxValue ≥ a ↔ ∀ v ∈ vs, a ≤ v := fun a =>
    le_foldl_min.trans ⟨fun h => h.2, fun h => ⟨Int64.le_maxValue a, h⟩⟩
  have hmax : ∀ a : Int64, vs.foldl max Int64.minValue ≤ a ↔ ∀ v ∈ vs, v ≤ a := fun a =>
    foldl_max_le.trans ⟨fun h => h.2, fun h => ⟨Int64.minValue_le a, h⟩⟩
  have hboth : ∀ a b : Int64, (vs.foldl min Int64.maxValue ≥ a ∧ vs.foldl max Int64.minValue ≤ b) ↔
      ∀ v ∈ vs, a ≤ v ∧ v ≤ b := fun a b => by
    rw [hmin, hmax]
    exact ⟨fun h v hv => ⟨h.1 v hv, h.2 v hv⟩, fun h => ⟨fun v hv => (h v hv).1, fun v hv => (h v hv).2⟩⟩
  have hwiden : ∀ {a b a' b' : Int64}, a' ≤ a → b ≤ b' → (∀ v ∈ vs, a ≤ v ∧ v ≤ b) → ∀ v ∈ vs, a' ≤ v ∧ v ≤ b' := by
    intro a b a' b' ha hb h v hv
    exact ⟨Int64.le_trans ha (h v hv).1, Int64.le_trans (h v hv).2 hb⟩
  have h12 := hwiden (a := 0) (b := 255) (show (-32768 : Int64) ≤ 0 by decide) (show (255 : Int64) ≤ 32767 by decide)
  have h24 := hwiden (a := -32768) (b := 32767) (show (-2147483648 : Int64) ≤ -32768 by decide)
    (show (32767 : Int64) ≤ 2147483647 by decide)
  have hcell : ∀ k a b, (∀ v : Int64, (encodeIntCell v k).isOk = true ↔ a ≤ v ∧ v ≤ b) →
      (Encodes vs k ↔ ∀ v ∈ vs, a ≤ v ∧ v ≤ b) := fun k a b h => by
    constructor
    · exact fun hall v hv => (h v).mp (hall v hv)
    · exact fun hall v hv => (h v).mpr (hall v hv)
  obtain ⟨h1, h2, h4, h8⟩ := widths_le h12 h24
  rw [inferIntWidth]
  simp only [hboth]
  rcases hk with rfl | rfl | rfl | rfl
  · rw [h1, hcell 1 0 255 fun v => by simp [encodeIntCell_isOk, Int64.le_iff_toInt_le]]
  · rw [h2, hcell 2 (-32768) 32767 fun v => by simp [encodeIntCell_isOk, Int64.le_iff_toInt_le]]
  · rw [h4, hcell 4 (-2147483648) 2147483647 fun v => by simp [encodeIntCell_isOk, Int64.le_iff_toInt_le]]
  · refine iff_of_true (fun v _ => ?_) h8
    simp [encodeIntCell_isOk]

theorem inferIntWidth_cases (min max : Int64) : (inferIntWidth min max).toNat = 1 ∨ (inferIntWidth min max).toNat = 2 ∨
    (inferIntWidth min max).toNat = 4 ∨ (inferIntWidth min max).toNat = 8 := by
  unfold inferIntWidth
  split_ifs <;> decide

/-- The integers of an integer slot of a compact writer: the inferred width encodes each of them to what is decoded
to it again, and no smaller width encodes them all. -/
theorem narrow_width_sound {sorter : SlotSort} {keys : List String} {opts : CompactOptions} {ops : List WriterOp}
    {w : NxsWriter} (hrun : WriterOp.run sorter (NxsWriter.withCompact keys (some opts)) ops = .ok w) {slot : ℕ}
    (hslot : slot < keys.length) (hint : (w.slotSigils.map schemaSigil)[slot]? = some SIGIL_INT) :
    ∃ width, (inferNarrowWidths (w.slotSigils.map schemaSigil) w.intMin w.intMax)[slot]? = some width ∧
      (∀ v ∈ WriterOp.ints slot ops, ∃ bytes, encodeIntCell v width.toNat = .ok bytes ∧
        ∀ (d : Slice) (p : ℕ), At d.bytes p bytes → decodeIntCell d.bytes p width.toNat = .ok v) ∧
      ∀ k ∈ [1, 2, 4, 8], k < width.toNat → ∃ v ∈ WriterOp.ints slot ops, (encodeIntCell v k).isOk ≠ true := by
  have hnew : Ranged slot [] (NxsWriter.withCompact keys (some opts)) := by
    constructor
    · rw [NxsWriter.withCompact, List.getElem?_replicate, if_pos hslot, List.foldl_nil]
    · rw [NxsWriter.withCompact, List.getElem?_replicate, if_pos hslot, List.foldl_nil]
  have hranged := WriterOp.run_ranged hnew hrun
  rw [List.nil_append] at hranged
  set vs := WriterOp.ints slot ops
  set width := inferIntWidth (vs.foldl min Int64.maxValue) (vs.foldl max Int64.minValue) with hwidth
  have hlt := (List.getElem?_eq_some_iff.mp hint).1
  have hcases := inferIntWidth_cases (vs.foldl min Int64.maxValue) (vs.foldl max Int64.minValue)
  rw [← hwidth] at hcases
  refine ⟨width, ?_, fun v hv => ?_, fun k hk hlt => ?_⟩
  · rw [inferNarrowWidths, List.getElem?_map, List.getElem?_range hlt, Option.map_some, List.getD_eq_getElem?_getD, hint,
      List.getD_eq_getElem?_getD, hranged.min, List.getD_eq_getElem?_getD, hranged.max]
    rfl
  · have hok := (width_le_iff hcases).mpr (Nat.le_of_eq (by rw [hwidth])) v hv
    obtain ⟨bytes, hbytes⟩ := isOk_iff.mp hok
    refine ⟨bytes, hbytes, fun d p hat => ?_⟩
    rw [encodeIntCell_bytes hbytes] at hat
    rw [decodeIntCell_at hcases d.small hat, (lowInt_eq_iff hcases).mpr hok]
  · have hk' : k = 1 ∨ k = 2 ∨ k = 4 ∨ k = 8 := by simpa using hk
    by_contra hall
    refine absurd ((width_le_iff hk').mp fun v hv => ?_) (Nat.not_le.mpr hlt)
    by_contra hbad
    exact hall ⟨v, hv, hbad⟩

/-- Two records with the bounds of an unsigned byte. -/
theorem narrow_width_sound_two : ∃ w, WriterOp.run SlotSort.stable (NxsWriter.withCompact ["a"] (some .compact))
    [.beginObject, .write ⟨0, .i64 0⟩, .endObject, .beginObject, .write ⟨0, .i64 255⟩, .endObject] = .ok w ∧
    (inferNarrowWidths (w.slotSigils.map schemaSigil) w.intMin w.intMax)[0]? = some 1 := by
  obtain ⟨w, hw⟩ := isOk_iff.mp (show (WriterOp.run SlotSort.stable (NxsWriter.withCompact ["a"] (some .compact))
    [.beginObject, .write ⟨0, .i64 0⟩, .endObject, .beginObject, .write ⟨0, .i64 255⟩, .endObject]).isOk = true by
      decide +kernel)
  have hsigils : (WriterOp.run SlotSort.stable (NxsWriter.withCompact ["a"] (some .compact))
      [.beginObject, .write ⟨0, .i64 0⟩, .endObject, .beginObject, .write ⟨0, .i64 255⟩, .endObject] >>= fun w =>
        .ok (w.slotSigils.map schemaSigil)) = .ok [SIGIL_INT] := by decide +kernel
  rw [hw, ok_bind] at hsigils
  obtain ⟨width, hwidth, hvalues, hleast⟩ := narrow_width_sound hw (show 0 < ["a"].length by decide)
    (by rw [Outcome.ok.inj hsigils]; rfl)
  refine ⟨w, hw, ?_⟩
  rw [hwidth]
  have hle : ¬ 1 < width.toNat := fun hlt => by
    obtain ⟨v, hv, hbad⟩ := hleast 1 (by decide) hlt
    change v ∈ [0, 255] at hv
    simp only [List.mem_cons, List.not_mem_nil, or_false] at hv
    rcases hv with rfl | rfl <;> exact absurd hbad (by decide)
  have hcases : width.toNat = 1 ∨ width.toNat = 0 := by omega
  rcases hcases with h1 | h0
  · rw [← UInt8.toNat_inj.mp (h1.trans (show 1 = (1 : UInt8).toNat from rfl))]
  · obtain ⟨bytes, hbytes, -⟩ := hvalues 0 (by decide)
    rw [h0] at hbytes
    cases hbytes

end Nyxis
